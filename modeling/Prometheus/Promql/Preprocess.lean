import Prometheus.Promql.Durations
import Prometheus.Promql.Semantics

/-!
# Preprocessing of queries

`PreprocessExpr` of `promql/engine.go`, which is run before a query is evaluated over a range of
steps. It computes the durations that are given by expressions (`promql/durations.go`), puts
timestamps in the place of `@ start()` and `@ end()`, and wraps in a `StepInvariantExpr` what need
only be evaluated once.

`preprocessExprHelper` goes down the tree and comes back with whether the expression is step
invariant. It does not go into the parameter of an aggregation. So nothing there is resolved, and an
aggregation is wrapped with its parameter as soon as the vector it aggregates is step invariant. Up
to that, and up to the function `info`, what is wrapped has the same value at every step
(`preprocessExpr_sound_iff_params`).
-/

namespace Prometheus.Promql

open List Option Promql.Expr Modifiers

/-! ### Step invariant expressions -/

variable (start stop : ℤ)

/-- The timestamps of `@ start()` and `@ end()`. -/
def Modifiers.resolve (m : Modifiers) : Modifiers :=
  match m.startOrEnd with
  | none => m
  | some .start => { m with timestamp := some start }
  | some .end => { m with timestamp := some stop }

def VectorSelector.resolve (vs : VectorSelector) : VectorSelector :=
  { vs with toModifiers := vs.toModifiers.resolve start stop }

def Subquery.resolve (sub : Subquery) : Subquery :=
  { sub with toModifiers := sub.toModifiers.resolve start stop }

/-- Wraps an expression if it is step invariant. -/
def wrapIf (isInvariant : Bool) (e : Expr) : Expr :=
  if isInvariant then .stepInvariant e else e

section Helper

variable (start stop : ℤ)

mutual

/-- The expression with what is wrapped in it, and whether it can itself be wrapped. The function
panics on a node that is already wrapped. -/
def preprocessExprHelper : Expr → Option (Expr × Bool)
  | .vectorSelector vs =>
    let vs := vs.resolve start stop
    some (.vectorSelector vs, vs.timestamp.isSome)
  | .aggregate op e param grouping without => do
    let (e, isInvariant) ← preprocessExprHelper e
    return (.aggregate op e param grouping without, isInvariant)
  | .binary op lhs rhs matching returnBool => do
    let (lhs, isInvariant1) ← preprocessExprHelper lhs
    let (rhs, isInvariant2) ← preprocessExprHelper rhs
    if isInvariant1 && isInvariant2 then
      return (.binary op lhs rhs matching returnBool, true)
    return (.binary op (wrapIf isInvariant1 lhs) (wrapIf isInvariant2 rhs)
      matching returnBool, false)
  | .call func args => do
    let args ← preprocessArgs args
    if !atModifierUnsafeFunctions.contains func && args.all (·.2) then
      return (.call func (args.map (·.1)), true)
    return (.call func (args.map fun (e, isInvariant) => wrapIf isInvariant e), false)
  | .matrixSelector vs range rangeExpr =>
    let vs := vs.resolve start stop
    some (.matrixSelector vs range rangeExpr, vs.timestamp.isSome)
  | .subquery e sub => do
    let (e, isInvariant) ← preprocessExprHelper e
    let sub := sub.resolve start stop
    return (.subquery (wrapIf isInvariant e) sub, sub.timestamp.isSome)
  | .paren e => do
    let (e, isInvariant) ← preprocessExprHelper e
    return (.paren e, isInvariant)
  | .unary op e => do
    let (e, isInvariant) ← preprocessExprHelper e
    return (.unary op e, isInvariant)
  | .string val => some (.string val, true)
  | .number val duration => some (.number val duration, true)
  | .stepInvariant _ => none

def preprocessArgs : List Expr → Option (List (Expr × Bool))
  | [] => some []
  | e :: es => do
    let r ← preprocessExprHelper e
    let rs ← preprocessArgs es
    return r :: rs

end

end Helper

def preprocessExpr (fl : FloatArith) (expr : Expr) (start stop : ℤ) :
    Option (Except DurationError Expr) :=
  match visitDurations fl expr with
  | .error err => some (.error err)
  | .ok expr => do
    let (expr, isStepInvariant) ← preprocessExprHelper start stop expr
    return .ok (wrapIf isStepInvariant expr)

/-! ### What the helper computes -/

/-- Whether there is a timestamp after `@`, or one that can be resolved. -/
def Modifiers.isInvariant (m : Modifiers) : Bool :=
  m.timestamp.isSome || m.startOrEnd.isSome

@[simp] lemma timestamp_resolve (start stop : ℤ) (m : Modifiers) :
    (m.resolve start stop).timestamp.isSome = m.isInvariant := by
  unfold resolve isInvariant
  split <;> simp [*]

mutual

/-- Whether the helper finds an expression step invariant. -/
def isInvariant : Expr → Bool
  | .aggregate _ e _ _ _ => isInvariant e
  | .binary _ lhs rhs _ _ => isInvariant lhs && isInvariant rhs
  | .call func args => !atModifierUnsafeFunctions.contains func && allInvariant args
  | .matrixSelector vs _ _ => vs.isInvariant
  | .subquery _ sub => sub.isInvariant
  | .number _ _ | .string _ => true
  | .paren e => isInvariant e
  | .unary _ e => isInvariant e
  | .stepInvariant _ => false
  | .vectorSelector vs => vs.isInvariant

def allInvariant : List Expr → Bool
  | [] => true
  | e :: es => isInvariant e && allInvariant es

end

lemma allInvariant_iff (args : List Expr) : allInvariant args ↔ ∀ a ∈ args, isInvariant a := by
  induction args with
  | nil => simp [allInvariant]
  | cons e es ih => simp [allInvariant, ih]

section Rewrite

variable (start stop : ℤ)

mutual

/-- The tree that the helper leaves behind. -/
def rewrite : Expr → Expr
  | .aggregate op e param grouping without => .aggregate op (rewrite e) param grouping without
  | .binary op lhs rhs matching returnBool =>
    if isInvariant lhs && isInvariant rhs then
      .binary op (rewrite lhs) (rewrite rhs) matching returnBool
    else
      .binary op (wrapIf (isInvariant lhs) (rewrite lhs)) (wrapIf (isInvariant rhs) (rewrite rhs))
        matching returnBool
  | .call func args =>
    if isInvariant (.call func args) then .call func (rewriteArgs args)
    else .call func (wrapArgs args)
  | .matrixSelector vs range rangeExpr => .matrixSelector (vs.resolve start stop) range rangeExpr
  | .subquery e sub => .subquery (wrapIf (isInvariant e) (rewrite e)) (sub.resolve start stop)
  | .number val duration => .number val duration
  | .paren e => .paren (rewrite e)
  | .string val => .string val
  | .unary op e => .unary op (rewrite e)
  | .stepInvariant e => .stepInvariant e
  | .vectorSelector vs => .vectorSelector (vs.resolve start stop)

def rewriteArgs : List Expr → List Expr
  | [] => []
  | e :: es => rewrite e :: rewriteArgs es

def wrapArgs : List Expr → List Expr
  | [] => []
  | e :: es => wrapIf (isInvariant e) (rewrite e) :: wrapArgs es

end

lemma rewriteArgs_eq (args : List Expr) :
    rewriteArgs start stop args = args.map (rewrite start stop) := by
  induction args with
  | nil => rfl
  | cons e es ih => simp only [rewriteArgs, ih, map_cons]

lemma wrapArgs_eq (args : List Expr) :
    wrapArgs start stop args = args.map fun e => wrapIf (isInvariant e) (rewrite start stop e) := by
  induction args with
  | nil => rfl
  | cons e es ih => simp only [wrapArgs, ih, map_cons]

end Rewrite

/-! ### Trees from the parser -/

/-- A node as the parser makes them: it is not wrapped, and after `@` there is either a timestamp or
one of the functions. -/
def ParsedNode : Expr → Prop
  | .stepInvariant _ => False
  | .vectorSelector vs => vs.startOrEnd.isSome → vs.timestamp = none
  | .subquery _ sub => sub.startOrEnd.isSome → sub.timestamp = none
  | _ => True

/-- Every node is as the parser makes it. -/
def Parsed (e : Expr) : Prop :=
  ∀ n, Below n e → ParsedNode n

variable {c : Expr}

lemma Parsed.child {e : Expr} (h : Parsed e) (hc : c ∈ e.children) : Parsed c :=
  fun n hn => h n (hn.child hc)

lemma preprocessExprHelper_eq {start stop : ℤ} {e : Expr} (h : Parsed e) :
    preprocessExprHelper start stop e = some (rewrite start stop e, isInvariant e) := by
  induction e with
  | aggregate op e param grouping without ih _ =>
    simp [preprocessExprHelper, rewrite, isInvariant, ih (h.child mem_cons_self)]
  | binary op lhs rhs matching returnBool ihl ihr =>
    have hl := ihl (h.child (by simp [children]))
    have hr := ihr (h.child (by simp [children]))
    simp only [preprocessExprHelper, rewrite, isInvariant, hl, hr, bind_eq_bind, bind_some]
    split_ifs with hi <;> simp [hi]
  | call func args ih =>
    have hargs : preprocessArgs start stop args
        = some (args.map fun e => (rewrite start stop e, isInvariant e)) := by
      have hall : ∀ a ∈ args, preprocessExprHelper start stop a
          = some (rewrite start stop a, isInvariant a) := fun a ha => ih a ha (h.child ha)
      clear ih h
      induction args with
      | nil => rfl
      | cons a as ih =>
        simp [preprocessArgs, hall a (by simp), ih fun b hb => hall b (by simp [hb])]
    have hinv : (args.map fun e => (rewrite start stop e, isInvariant e)).all (·.2)
        = allInvariant args := by
      rw [Bool.eq_iff_iff, allInvariant_iff]
      simp
    simp only [preprocessExprHelper, rewrite, isInvariant, hargs, hinv, bind_eq_bind,
      bind_some, rewriteArgs_eq, wrapArgs_eq, List.map_map]
    cases !atModifierUnsafeFunctions.contains func && allInvariant args <;>
      simp [Function.comp_def]
  | matrixSelector vs range rangeExpr | vectorSelector vs =>
    simp [preprocessExprHelper, rewrite, isInvariant, VectorSelector.resolve]
  | subquery e sub ih =>
    simp [preprocessExprHelper, rewrite, isInvariant, ih (h.child (by simp [children])),
      Subquery.resolve]
  | number | string => rfl
  | paren e ih | unary op e ih =>
    simp [preprocessExprHelper, rewrite, isInvariant, ih (h.child (by simp [children]))]
  | stepInvariant e _ => exact absurd (h _ (.refl _)) not_false

/-! ### What is wrapped -/

variable (start stop : ℤ)

/-- The timestamps of `@ start()` and `@ end()` are the right ones. -/
def Modifiers.Resolved (m : Modifiers) : Prop :=
  (m.startOrEnd = some .start → m.timestamp = some start) ∧
    (m.startOrEnd = some .end → m.timestamp = some stop)

/-- The timestamp of a selector or subquery no longer needs `start` and `stop`. -/
def Resolved : Expr → Prop
  | .vectorSelector vs => vs.Resolved start stop
  | .subquery _ sub => sub.Resolved start stop
  | _ => True

lemma Modifiers.resolved_resolve (m : Modifiers) : (m.resolve start stop).Resolved start stop := by
  unfold resolve Resolved
  split <;> simp [*]

/-- What is wrapped does not depend on the evaluation time, as far as can be seen from its
selectors, subqueries and functions; all timestamps are resolved; and so what is wrapped has one
value at all steps, whatever the selectors, operators and functions compute. -/
structure Sound (start stop : ℤ) (e : Expr) : Prop where
  fixed : ∀ w, Below (.stepInvariant w) e → fixed atModifierUnsafeFunctions w
  resolved : ∀ n, Below n e → Resolved start stop n
  eval_const : ∀ w, Below (.stepInvariant w) e →
    ∀ (V : Type) (I : Interp V) (t t' : ℤ), eval I w t = eval I w t'

/-- The children that the helper goes into: all but the parameters of aggregations. -/
def visitedChildren : Expr → List Expr
  | .aggregate _ e _ _ _ => [e]
  | .matrixSelector _ _ _ => []
  | e => e.children

attribute [local simp] children visitedChildren isInvariant

/-- There is no `@ start()` or `@ end()` in a node. -/
def NoPreprocessor : Expr → Prop
  | .vectorSelector vs => vs.startOrEnd = none
  | .subquery _ sub => sub.startOrEnd = none
  | _ => True

/-- A parameter of an aggregation has neither `@ start()` nor `@ end()`, and it does not depend on
the evaluation time if the aggregated vector does not. A call of `info` depends on it. -/
def NodeOk : Expr → Prop
  | .aggregate _ e (some param) _ _ =>
    (∀ n, Below n param → NoPreprocessor n) ∧ (isInvariant e → fixed stepTimeFunctions param)
  | .call func args => ¬(func = "info" ∧ allInvariant args)
  | _ => True

/-- The condition on all nodes that the helper visits. -/
def ParamsOk (e : Expr) : Prop :=
  ∀ n, Under visitedChildren n e → NodeOk n

lemma ParamsOk.child {e : Expr} (h : ParamsOk e) (hc : c ∈ visitedChildren e) : ParamsOk c :=
  fun n hn => h n (hn.child hc)

lemma ParamsOk.node {e : Expr} (h : ParamsOk e) : NodeOk e :=
  h e (.refl e)

section Sound

variable {start stop : ℤ} {n e : Expr}

lemma rewrite_binary (op : BinaryOp) (lhs rhs : Expr) (matching : Option VectorMatching)
    (returnBool : Bool) :
    rewrite start stop (.binary op lhs rhs matching returnBool) =
      if isInvariant lhs && isInvariant rhs then
        .binary op (rewrite start stop lhs) (rewrite start stop rhs) matching returnBool
      else
        .binary op (wrapIf (isInvariant lhs) (rewrite start stop lhs))
          (wrapIf (isInvariant rhs) (rewrite start stop rhs)) matching returnBool :=
  rfl

lemma rewrite_call (func : String) (args : List Expr) :
    rewrite start stop (.call func args) =
      .call func (if isInvariant (.call func args) then args.map (rewrite start stop)
        else args.map fun e => wrapIf (isInvariant e) (rewrite start stop e)) := by
  rw [rewrite, rewriteArgs_eq, wrapArgs_eq]
  split_ifs <;> rfl

lemma below_wrapIf (b : Bool) (e : Expr) : Below e (wrapIf b e) := by
  cases b with
  | false => exact .refl e
  | true => exact Under.child (.refl e) mem_cons_self

lemma fixed_rewrite (hok : ParamsOk e) (hi : isInvariant e) :
    fixed stepTimeFunctions (rewrite start stop e) := by
  induction e with
  | aggregate op e param grouping without ih _ =>
    simp only [rewrite, fixed, Bool.and_eq_true, fixedParam_iff]
    refine ⟨ih (hok.child mem_cons_self) hi, ?_⟩
    rintro p rfl
    exact hok.node.2 hi
  | binary op lhs rhs matching returnBool ihl ihr =>
    simp only [isInvariant, Bool.and_eq_true] at hi
    simp only [rewrite, hi, Bool.and_self, if_true, fixed, Bool.and_eq_true]
    exact ⟨ihl (hok.child (by simp)) hi.1, ihr (hok.child (by simp)) hi.2⟩
  | call func args ih =>
    have hargs := hi
    simp only [isInvariant, Bool.and_eq_true, Bool.not_eq_true', contains_eq_mem,
      decide_eq_false_iff_not] at hargs
    simp only [rewrite_call, hi, if_true, fixed, Bool.and_eq_true, fixedArgs_iff,
      List.forall_mem_map, Bool.not_eq_true', contains_eq_mem, decide_eq_false_iff_not,
      stepTimeFunctions, mem_cons, not_or]
    refine ⟨⟨fun hf => hok.node ⟨hf, hargs.2⟩, hargs.1⟩, fun a ha => ?_⟩
    exact ih a ha (hok.child ha) ((allInvariant_iff args).1 hargs.2 a ha)
  | matrixSelector vs range rangeExpr | vectorSelector vs =>
    exact (timestamp_resolve start stop vs.toModifiers).trans hi
  | subquery e sub _ => exact (timestamp_resolve start stop sub.toModifiers).trans hi
  | number | string => rfl
  | paren e ih | unary op e ih => exact ih (hok.child mem_cons_self) hi
  | stepInvariant e _ => exact absurd hi (by simp)

/-- What has to hold of a node of the result. -/
def NodeSound (start stop : ℤ) (n : Expr) : Prop :=
  Resolved start stop n ∧ ∀ w, n = .stepInvariant w → fixed stepTimeFunctions w

lemma nodeSound_wrapIf {b : Bool} (hfixed : b → fixed stepTimeFunctions e)
    (h : ∀ n, Below n e → NodeSound start stop n) :
    ∀ n, Below n (wrapIf b e) → NodeSound start stop n := by
  cases b with
  | false => exact h
  | true =>
    refine forall_under_iff.2 ⟨⟨trivial, ?_⟩, ?_⟩
    · rintro w ⟨⟩
      exact hfixed rfl
    · intro c hc
      rwa [mem_singleton.1 hc]

/-- Where there is nothing to resolve and nothing is wrapped, nothing has to be done. -/
lemma nodeSound_of_noPreprocessor (hp : Parsed e)
    (h : ∀ n, Below n e → NoPreprocessor n) : ∀ n, Below n e → NodeSound start stop n := by
  intro n hn
  have hparsed := hp n hn
  have hnone := h n hn
  refine ⟨?_, ?_⟩
  · cases n <;> simp_all [NoPreprocessor, Resolved, Modifiers.Resolved]
  · rintro w rfl
    exact absurd hparsed not_false

lemma nodeSound_rewrite (hp : Parsed e) (hok : ParamsOk e) :
    ∀ n, Below n (rewrite start stop e) → NodeSound start stop n := by
  induction e with
  | aggregate op e param grouping without ih _ =>
    refine forall_under_iff.2 ⟨⟨trivial, nofun⟩, forall_mem_cons.2 ⟨?_, ?_⟩⟩
    · exact ih (hp.child mem_cons_self) (hok.child mem_cons_self)
    intro p hmem
    obtain rfl := mem_toList.1 hmem
    exact nodeSound_of_noPreprocessor (hp.child (by simp)) hok.node.1
  | binary op lhs rhs matching returnBool ihl ihr =>
    have hokl : ParamsOk lhs := hok.child (by simp)
    have hokr : ParamsOk rhs := hok.child (by simp)
    have hl := ihl (hp.child (by simp)) hokl
    have hr := ihr (hp.child (by simp)) hokr
    rw [rewrite_binary]
    split_ifs with hi
    · exact forall_under_iff.2 ⟨⟨trivial, nofun⟩, by simpa using ⟨hl, hr⟩⟩
    have hl' := nodeSound_wrapIf (fixed_rewrite hokl) hl
    have hr' := nodeSound_wrapIf (fixed_rewrite hokr) hr
    exact forall_under_iff.2 ⟨⟨trivial, nofun⟩, by simpa using ⟨hl', hr'⟩⟩
  | call func args ih =>
    have hargs : ∀ a ∈ args, ∀ n, Below n (rewrite start stop a) → NodeSound start stop n :=
      fun a ha => ih a ha (hp.child ha) (hok.child ha)
    rw [rewrite_call]
    refine forall_under_iff.2 ⟨⟨trivial, nofun⟩, ?_⟩
    rw [children]
    split_ifs with hi
    · exact forall_mem_map.2 hargs
    · exact forall_mem_map.2 fun a ha =>
        nodeSound_wrapIf (fixed_rewrite (hok.child ha)) (hargs a ha)
  | matrixSelector vs range rangeExpr =>
    refine forall_under_iff.2 ⟨⟨trivial, nofun⟩, ?_⟩
    intro c hc
    rw [mem_singleton.1 hc]
    exact forall_under_iff.2 ⟨⟨resolved_resolve start stop _, nofun⟩, nofun⟩
  | vectorSelector vs =>
    exact forall_under_iff.2 ⟨⟨resolved_resolve start stop _, nofun⟩, nofun⟩
  | subquery e sub ih =>
    refine forall_under_iff.2 ⟨⟨resolved_resolve start stop _, nofun⟩, ?_⟩
    have hoke : ParamsOk e := hok.child (by simp)
    intro c hc
    rw [mem_singleton.1 hc]
    exact nodeSound_wrapIf (fixed_rewrite hoke) (ih (hp.child (by simp)) hoke)
  | number | string => exact forall_under_iff.2 ⟨⟨trivial, nofun⟩, nofun⟩
  | paren e ih | unary op e ih =>
    refine forall_under_iff.2 ⟨⟨trivial, nofun⟩, ?_⟩
    intro c hc
    rw [mem_singleton.1 hc]
    exact ih (hp.child (by simp)) (hok.child (by simp))
  | stepInvariant e _ => exact absurd (hp _ (.refl _)) not_false

lemma sound_of_nodeSound (h : ∀ n, Below n e → NodeSound start stop n) : Sound start stop e where
  fixed w hw := fixed_mono (subset_cons_self _ _) ((h _ hw).2 w rfl)
  resolved n hn := (h n hn).1
  eval_const w hw := fixed_iff_eval_const.1 ((h _ hw).2 w rfl)

/-! ### What goes wrong with parameters -/

/-- A visited child is found again among the children: wrapped if it is step invariant, or else as
it is, and then its parent can be wrapped if it could be. -/
lemma child_rewrite {e : Expr} (hp : ParsedNode e) (hc : c ∈ visitedChildren e) :
    wrapIf (isInvariant c) (rewrite start stop c) ∈ (rewrite start stop e).children ∨
      rewrite start stop c ∈ (rewrite start stop e).children ∧ (isInvariant c → isInvariant e) ∧
        (fixed stepTimeFunctions (rewrite start stop e) →
          fixed stepTimeFunctions (rewrite start stop c)) := by
  cases e with
  | aggregate op e param grouping without =>
    obtain rfl := mem_singleton.1 hc
    refine .inr ⟨mem_cons_self, id, fun h => ?_⟩
    simp only [rewrite, fixed, Bool.and_eq_true] at h
    exact h.1
  | binary op lhs rhs matching returnBool =>
    simp only [visitedChildren, children, mem_cons, not_mem_nil, or_false] at hc
    rw [rewrite_binary]
    split_ifs with hi
    · right
      simp only [isInvariant, fixed, children, hi, Bool.and_eq_true]
      obtain rfl | rfl := hc
      · exact ⟨by simp, fun _ => trivial, And.left⟩
      · exact ⟨by simp, fun _ => trivial, And.right⟩
    · left
      obtain rfl | rfl := hc <;> simp
  | call func args =>
    have hmem : c ∈ args := hc
    rw [rewrite_call]
    split_ifs with hi
    · right
      simp only [fixed, children, hi, Bool.and_eq_true, fixedArgs_iff, List.forall_mem_map]
      exact ⟨mem_map_of_mem hmem, fun _ => trivial, fun h => h.2 c hmem⟩
    · left
      exact mem_map_of_mem hmem
  | subquery e sub =>
    obtain rfl := mem_singleton.1 hc
    exact .inl mem_cons_self
  | paren e | unary op e =>
    obtain rfl := mem_singleton.1 hc
    exact .inr ⟨mem_cons_self, id, id⟩
  | stepInvariant e => exact absurd hp not_false
  | matrixSelector | number | string | vectorSelector => exact absurd hc not_mem_nil

lemma visitedChildren_subset (e : Expr) : visitedChildren e ⊆ e.children := by
  intro c hc
  cases e with
  | aggregate =>
    rw [mem_singleton.1 hc]
    exact mem_cons_self
  | matrixSelector => exact absurd hc not_mem_nil
  | _ => exact hc

lemma below_of_visited (h : Under visitedChildren n e) : Below n e :=
  Relation.ReflTransGen.mono (fun _ e hc => visitedChildren_subset e hc) _ _ h

/-- What the helper visits is still there after it. -/
lemma below_rewrite (hp : Parsed e) (h : Under visitedChildren n e) :
    Below (rewrite start stop n) (rewrite start stop e) := by
  induction h with
  | refl => exact .refl _
  | @tail c e hn hc ih =>
    refine (ih (hp.child (visitedChildren_subset e hc))).trans ?_
    obtain hmem | ⟨hmem, -⟩ := child_rewrite (hp e (.refl e)) hc
    · exact (below_wrapIf _ _).child hmem
    · exact Under.child (.refl _) hmem

/-- What the helper finds step invariant becomes part of something that is wrapped, and which
depends on the evaluation time if it does. -/
lemma exists_wrapped (hp : Parsed e) (h : Under visitedChildren n e) (hi : isInvariant n) :
    ∃ w, Below (.stepInvariant w) (wrapIf (isInvariant e) (rewrite start stop e)) ∧
      (fixed stepTimeFunctions w → fixed stepTimeFunctions (rewrite start stop n)) := by
  induction h with
  | refl => exact ⟨_, by rw [hi]; exact .refl _, id⟩
  | @tail c e hn hc ih =>
    obtain ⟨w, hw, himp⟩ := ih (hp.child (visitedChildren_subset e hc))
    have hroot := below_wrapIf (isInvariant e) (rewrite start stop e)
    obtain hmem | ⟨hmem, hinv, hfixed⟩ := child_rewrite (hp e (.refl e)) hc
    · exact ⟨w, (hw.child hmem).trans hroot, himp⟩
    cases hc' : isInvariant c with
    | false =>
      rw [hc'] at hw
      exact ⟨w, (Under.child hw hmem).trans hroot, himp⟩
    | true =>
      -- The child was to be wrapped, but its parent is in its place, or something below the child.
      rw [hc'] at hw
      obtain heq | ⟨c', hmem', hw⟩ := under_iff.1 hw
      · refine ⟨rewrite start stop e, by rw [hinv hc']; exact .refl _, fun h => himp ?_⟩
        rw [stepInvariant.inj heq]
        exact hfixed h
      · obtain rfl := mem_singleton.1 hmem'
        exact ⟨w, (hw.child hmem).trans hroot, himp⟩

lemma startOrEnd_eq_none {m : Modifiers}
    (hp : m.startOrEnd.isSome → m.timestamp = none) (h : m.Resolved start stop) :
    m.startOrEnd = none := by
  cases hm : m.startOrEnd with
  | none => rfl
  | some p =>
    have hnone := hp (by rw [hm]; rfl)
    cases p with
    | start => exact nomatch hnone.symm.trans (h.1 hm)
    | «end» => exact nomatch hnone.symm.trans (h.2 hm)

/-- If a node is right that the helper did not resolve, then there was nothing to resolve. -/
lemma noPreprocessor_of_resolved {n : Expr} (hp : ParsedNode n) (h : Resolved start stop n) :
    NoPreprocessor n := by
  cases n with
  | vectorSelector vs => exact startOrEnd_eq_none hp h
  | subquery e sub => exact startOrEnd_eq_none hp h
  | _ => trivial

lemma paramsOk_of_sound (hp : Parsed e)
    (h : Sound start stop (wrapIf (isInvariant e) (rewrite start stop e))) : ParamsOk e := by
  intro n hn
  have hfixed : isInvariant n → fixed stepTimeFunctions (rewrite start stop n) := by
    intro hi
    obtain ⟨w, hw, himp⟩ := exists_wrapped hp hn hi
    exact himp (fixed_iff_eval_const.2 (h.eval_const w hw))
  have hbelow := (below_rewrite hp hn).trans (below_wrapIf (isInvariant e) (rewrite start stop e))
  cases n with
  | aggregate op body param grouping without =>
    cases param with
    | none => trivial
    | some param =>
      refine ⟨fun m hm => ?_, fun hi => ?_⟩
      · -- The parameter is below the aggregation before and after.
        have hparam : ∀ {x}, Below m (.aggregate op x (some param) grouping without) :=
          hm.child (by simp)
        exact noPreprocessor_of_resolved (hp m (hparam.trans (below_of_visited hn)))
          (h.resolved m (hparam.trans hbelow))
      · have := hfixed hi
        simp only [rewrite, fixed, Bool.and_eq_true] at this
        exact this.2
  | call func args =>
    rintro ⟨rfl, hargs⟩
    have := hfixed (by simp [hargs, atModifierUnsafeFunctions])
    simp [rewrite, hargs, atModifierUnsafeFunctions, fixed, stepTimeFunctions] at this
  | _ => trivial

end Sound

/-! ### Durations do not matter -/

variable (e : Expr)

lemma visitedChildren_strip : visitedChildren (strip e) = (visitedChildren e).map strip := by
  cases e with
  | call func args => exact stripArgs_eq args
  | _ => rfl

lemma allInvariant_stripArgs {args : List Expr}
    (h : ∀ a ∈ args, isInvariant (strip a) = isInvariant a) :
    allInvariant (stripArgs args) = allInvariant args := by
  rw [stripArgs_eq, Bool.eq_iff_iff, allInvariant_iff, allInvariant_iff, List.forall_mem_map]
  exact forall₂_congr fun a ha => by rw [h a ha]

lemma isInvariant_strip : isInvariant (strip e) = isInvariant e := by
  induction e with
  | aggregate op e param grouping without ih _ => exact ih
  | binary op lhs rhs matching returnBool ihl ihr => rw [strip, isInvariant, isInvariant, ihl, ihr]
  | call func args ih =>
    rw [strip, isInvariant, isInvariant, allInvariant_stripArgs ih]
  | paren e ih | unary op e ih => exact ih
  | _ => rfl

lemma fixed_strip (fns : List String) (e : Expr) : fixed fns (strip e) = fixed fns e := by
  induction e with
  | aggregate op e param grouping without ihe ihp =>
    have hparam : fixedParam fns (stripParam param) = fixedParam fns param := by
      cases param with
      | none => rfl
      | some p => exact ihp p rfl
    rw [strip, fixed, fixed, ihe, hparam]
  | binary op lhs rhs matching returnBool ihl ihr => rw [strip, fixed, fixed, ihl, ihr]
  | call func args ih =>
    have hargs : fixedArgs fns (stripArgs args) = fixedArgs fns args := by
      rw [stripArgs_eq, Bool.eq_iff_iff, fixedArgs_iff, fixedArgs_iff, List.forall_mem_map]
      exact forall₂_congr fun a ha => by rw [ih a ha]
    rw [strip, fixed, fixed, hargs]
  | paren e ih | unary op e ih | stepInvariant e ih => exact ih
  | _ => rfl

lemma parsed_strip : Parsed (strip e) ↔ Parsed e := by
  refine forall_under_map children_strip fun n => ?_
  cases n <;> rfl

lemma nodeOk_strip (n : Expr) : NodeOk (strip n) ↔ NodeOk n := by
  cases n with
  | aggregate op e param grouping without =>
    cases param with
    | none => rfl
    | some param =>
      refine and_congr ?_ (by rw [isInvariant_strip, fixed_strip])
      refine forall_under_map children_strip fun n => ?_
      cases n <;> rfl
  | call func args =>
    rw [strip, NodeOk, NodeOk, allInvariant_stripArgs fun a _ => isInvariant_strip a]
  | _ => rfl

lemma paramsOk_strip : ParamsOk (strip e) ↔ ParamsOk e :=
  forall_under_map visitedChildren_strip nodeOk_strip

lemma preprocessExpr_eq {fl : FloatArith} {e e' : Expr} {start stop : ℤ}
    (h : visitDurations fl e = .ok e') (hp : Parsed e') :
    preprocessExpr fl e start stop
      = some (.ok (wrapIf (isInvariant e') (rewrite start stop e'))) := by
  simp only [preprocessExpr, h, preprocessExprHelper_eq hp]
  rfl

/-- **Step invariant wrapping.** Preprocessing a query from the parser does not panic. Its result is
right if and only if each parameter of an aggregation that is visited is without `@ start()` and `@
end()`, does not depend on the evaluation time if the aggregated vector is step invariant, and
`info` is not called with arguments that all are. -/
theorem preprocessExpr_sound_iff_params (fl : FloatArith) (start stop : ℤ) (e : Expr)
    (hp : Parsed e) :
    preprocessExpr fl e start stop ≠ none ∧
      ∀ out, preprocessExpr fl e start stop = some (.ok out) →
        (Sound start stop out ↔ ParamsOk e) := by
  cases hvisit : visitDurations fl e with
  | error err => simp [preprocessExpr, hvisit]
  | ok e' =>
    have hstrip := strip_visitDurations hvisit
    have hp' : Parsed e' := by rwa [← parsed_strip, hstrip, parsed_strip]
    have hok : ParamsOk e' ↔ ParamsOk e := by
      rw [← paramsOk_strip, hstrip, paramsOk_strip]
    rw [preprocessExpr_eq hvisit hp']
    refine ⟨some_ne_none _, ?_⟩
    rintro out ⟨⟩
    rw [← hok]
    constructor
    · exact paramsOk_of_sound hp'
    · intro h
      exact sound_of_nodeSound (nodeSound_wrapIf (fixed_rewrite h) (nodeSound_rewrite hp' h))

/-- `name` with an optional timestamp after `@`. -/
def selector (name : String) (timestamp : Option ℤ) : Expr :=
  .vectorSelector
    { originalOffset := 0
      originalOffsetExpr := none
      timestamp := timestamp
      startOrEnd := none
      name := name
      labelMatchers := [⟨.matchEqual, "__name__", name⟩]
      bypassEmptyMatcherCheck := false }

/-- `topk(scalar(foo), bar @ 10)`, where the number of elements to keep changes from step to step.
-/
def topkScalar : Expr :=
  .aggregate .topk (selector "bar" (some 10000))
    (some (.call "scalar" [selector "foo" none])) [] false

/-- It is wrapped as a whole, and so evaluated only at the first step. -/
theorem preprocessExpr_wraps_param :
    ∃ out, preprocessExpr ⟨fun x _ => x, fun x _ => x, fun x _ => x, fun x _ => x, fun x _ => x,
        fun x _ => x, fun _ => 0⟩ topkScalar 0 60000 = some (.ok out) ∧
      Below (.stepInvariant topkScalar) out ∧ fixed atModifierUnsafeFunctions topkScalar = false :=
  ⟨.stepInvariant topkScalar, rfl, .refl _, rfl⟩

/-- `topk(2, bar @ 10)`. -/
def topkTwo : Expr :=
  .aggregate .topk (selector "bar" (some 10000))
    (some (.number 0x4000000000000000#64 false)) [] false

/-- The whole of `topk(2, ...)` is wrapped, with its parameter. -/
theorem preprocessExpr_sound_topk :
    Parsed topkTwo ∧ ParamsOk topkTwo ∧
      ∃ out, preprocessExpr ⟨fun x _ => x, fun x _ => x, fun x _ => x, fun x _ => x, fun x _ => x,
        fun x _ => x, fun _ => 0⟩ topkTwo 0 60000 = some (.ok out) ∧ Sound 0 60000 out := by
  have hout : preprocessExpr ⟨fun x _ => x, fun x _ => x, fun x _ => x, fun x _ => x, fun x _ => x,
      fun x _ => x, fun _ => 0⟩ topkTwo 0 60000 = some (.ok (.stepInvariant topkTwo)) := rfl
  have hp : Parsed topkTwo := by
    refine forall_under_iff.2 ⟨trivial, ?_⟩
    simp only [topkTwo, children, toList_some, forall_mem_cons, not_mem_nil,
      false_imp_iff, implies_true, and_true]
    exact ⟨forall_under_iff.2 ⟨nofun, nofun⟩, forall_under_iff.2 ⟨trivial, nofun⟩⟩
  have hok : ParamsOk topkTwo := by
    refine forall_under_iff.2 ⟨⟨forall_under_iff.2 ⟨trivial, nofun⟩, fun _ => rfl⟩, ?_⟩
    intro c hc
    rw [mem_singleton.1 hc]
    exact forall_under_iff.2 ⟨trivial, nofun⟩
  exact ⟨hp, hok, _, hout, ((preprocessExpr_sound_iff_params _ 0 60000 topkTwo hp).2 _ hout).2 hok⟩

end Prometheus.Promql
