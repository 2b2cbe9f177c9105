import Prometheus.Lib.BitList
import Prometheus.Lib.Cursor
import Prometheus.Lib.Search

/-!
# Postings lists and their combinators

The iterators of `tsdb/index/postings.go`: lists in memory and in the index file, and the
combinators `Intersect`, `Merge` and `Without` over them.

An iterator with states `S` is a value of `Postings S`. The combinators are functions from the
iterators they are built over, of whichever state types, to an iterator whose states hold theirs.
`Query` are the expressions a caller writes; `Query.build` is what the constructors make of them,
with their shortcuts for no or one argument and for `EmptyPostings`; `Obj.postingsOver` is the
iterator. Which iterator goes through the lists of the index file is a parameter of it: the code has
`bigEndianPostings` (`Obj.postings`), which a proof can compare with another one.

The loops of the combinators are bounded by a number of turns, `fuel`; a call that exceeds it has no
result.
-/

namespace Prometheus.Index

open BitList

/-- The methods of a postings iterator. References are `uint64`s. -/
structure Postings (S : Type) where
  next : S → Option (Bool × S)
  seek : S → ℕ → Option (Bool × S)
  atRef : S → ℕ

/-- `EmptyPostings`. -/
def emptyPostings : Postings Unit where
  next _ := some (false, ())
  seek _ _ := some (false, ())
  atRef _ := 0

/-! ### Lists -/

structure ListPostings where
  list : List ℕ
  cur : ℕ

namespace ListPostings

def next (it : ListPostings) : Bool × ListPostings :=
  match it.list with
  | x :: list => (true, ⟨list, x⟩)
  | [] => (false, ⟨[], 0⟩)

def seek (it : ListPostings) (x : ℕ) : Bool × ListPostings :=
  -- If the current value satisfies, then return.
  if it.cur ≥ x then (true, it)
  else if it.list.length = 0 then (false, it)
  else
    -- `slices.BinarySearch`
    let i := BinarySearch.search it.list.length fun i => ¬it.list.getD i 0 < x
    match it.list[i]? with
    | some y => (true, ⟨it.list.drop (i + 1), y⟩)
    | none => (false, ⟨[], it.cur⟩)

end ListPostings

def listPostings : Postings ListPostings where
  next it := some it.next
  seek it x := some (it.seek x)
  atRef it := it.cur

/-! ### Lists in the index file -/

/-- A byte stream of big endian numbers. -/
structure BigEndianPostings where
  list : List (BitVec 8)
  cur : ℕ

/-- `binary.BigEndian.Uint32`. -/
def bigEndianUint32 (b : List (BitVec 8)) : ℕ :=
  ofBytes (b.take 4)

namespace BigEndianPostings

variable (it : BigEndianPostings)

def next : Bool × BigEndianPostings :=
  if it.list.length ≥ 4 then (true, ⟨it.list.drop 4, bigEndianUint32 it.list⟩) else (false, it)

def seek (x : ℕ) : Bool × BigEndianPostings :=
  if it.cur ≥ x then (true, it)
  else
    let num := it.list.length / 4
    -- Note the conversion `uint32(x)`.
    let i := BinarySearch.search num fun i => bigEndianUint32 (it.list.drop (i * 4)) ≥ x % 2 ^ 32
    if i < num then
      let j := i * 4
      (true, ⟨it.list.drop (j + 4), bigEndianUint32 (it.list.drop j)⟩)
    else (false, ⟨[], it.cur⟩)

end BigEndianPostings

def bigEndianPostings : Postings BigEndianPostings where
  next it := some it.next
  seek it x := some (it.seek x)
  atRef it := it.cur

/-- The byte stream of a list of references. -/
def bigEndianBytes (refs : List ℕ) : List (BitVec 8) :=
  refs.flatMap fun x => [BitVec.ofNat 8 (x / 2 ^ 24), BitVec.ofNat 8 (x / 2 ^ 16),
    BitVec.ofNat 8 (x / 2 ^ 8), BitVec.ofNat 8 x]

/-! ### Intersection -/

structure IntersectPostings {n : ℕ} (S : Fin n → Type) where
  arr : ∀ i, S i
  cur : ℕ

namespace IntersectPostings

variable {n : ℕ} {S : Fin n → Type}

/-- How a turn of the loop in `doNext` ends. -/
inductive Scan
  | failed
  | raised
  | agreed

/-- The inner loop of `doNext`, over the iterators listed. -/
def scan (ps : ∀ i, Postings (S i)) :
    List (Fin n) → IntersectPostings S → Option (Scan × IntersectPostings S)
  | [], it => some (.agreed, it)
  | i :: is, it => do
    let (ok, s) ← (ps i).seek (it.arr i) it.cur
    let it := { it with arr := Function.update it.arr i s }
    if ¬ok then return (.failed, it)
    else if (ps i).atRef s > it.cur then return (.raised, { it with cur := (ps i).atRef s })
    else scan ps is it

def doNext (ps : ∀ i, Postings (S i)) :
    ℕ → IntersectPostings S → Option (Bool × IntersectPostings S)
  | 0, _ => none
  | fuel + 1, it => do
    match ← scan ps (List.finRange n) it with
    | (.failed, it) => return (false, it)
    | (.agreed, it) => return (true, it)
    | (.raised, it) => doNext ps fuel it

/-- The loop of `Next` before `doNext`. -/
def nextAll (ps : ∀ i, Postings (S i)) :
    List (Fin n) → IntersectPostings S → Option (Bool × IntersectPostings S)
  | [], it => some (true, it)
  | i :: is, it => do
    let (ok, s) ← (ps i).next (it.arr i)
    let it := { it with arr := Function.update it.arr i s }
    if ¬ok then return (false, it)
    else if (ps i).atRef s > it.cur then nextAll ps is { it with cur := (ps i).atRef s }
    else nextAll ps is it

variable (ps : ∀ i, Postings (S i))

def next (fuel : ℕ) (it : IntersectPostings S) : Option (Bool × IntersectPostings S) := do
  match ← nextAll ps (List.finRange n) it with
  | (false, it) => return (false, it)
  | (true, it) => doNext ps fuel it

def seek (fuel : ℕ) (it : IntersectPostings S) (id : ℕ) : Option (Bool × IntersectPostings S) :=
  doNext ps fuel { it with cur := id }

end IntersectPostings

def intersectPostings {n : ℕ} {S : Fin n → Type} (ps : ∀ i, Postings (S i)) (fuel : ℕ) :
    Postings (IntersectPostings S) where
  next := IntersectPostings.next ps fuel
  seek := IntersectPostings.seek ps fuel
  atRef it := it.cur

/-! ### Union -/

/-- A loser tree over `n` sequences, as far as it decides which one is the winner: one of those with
the least value, closed sequences having none. `Valid t nodes` says that `t` has been played for the
values `nodes`. -/
structure LoserTree (n : ℕ) where
  T : Type
  playGames : (Fin n → Option ℕ) → T
  replayGames : T → (Fin n → Option ℕ) → T
  winner : T → Fin n
  Valid : T → (Fin n → Option ℕ) → Prop
  playGames_valid : ∀ nodes, Valid (playGames nodes) nodes
  /-- The games are played again after the value of the winner has changed. -/
  replayGames_valid : ∀ {t nodes nodes'}, Valid t nodes → (∀ j ≠ winner t, nodes' j = nodes j) →
    Valid (replayGames t nodes') nodes'
  winner_le : ∀ {t nodes}, Valid t nodes → ∀ j v, nodes j = some v →
    ∃ w, nodes (winner t) = some w ∧ w ≤ v

/-- The tree `h` holds the value of each sequence; it is initialized on first use. -/
structure MergedPostings {n : ℕ} (S : Fin n → Type) (T : Type) where
  p : ∀ i, S i
  nodes : Fin n → Option ℕ
  t : Option T
  cur : ℕ

namespace MergedPostings

variable {n : ℕ} {S : Fin n → Type}

/-- The tree's `moveNext`. -/
def moveNext (ps : ∀ i, Postings (S i)) {T : Type} (it : MergedPostings S T) (i : Fin n) :
    Option (MergedPostings S T) := do
  let (ok, s) ← (ps i).next (it.p i)
  return { it with
    p := Function.update it.p i s
    nodes := Function.update it.nodes i (if ok then some ((ps i).atRef s) else none) }

variable (tree : LoserTree n)

variable (it : MergedPostings S tree.T)

/-- The tree, initialized if it is not. -/
def tree' : tree.T :=
  it.t.getD (tree.playGames it.nodes)

/-- The value of the winner. -/
def top : Option ℕ :=
  it.nodes (tree.winner (it.tree' tree))

/-- The tree's `Next`. -/
def treeNext (ps : ∀ i, Postings (S i)) (it : MergedPostings S tree.T) :
    Option (Bool × MergedPostings S tree.T) :=
  match it.t with
  | none => some ((it.top tree).isSome, { it with t := some (it.tree' tree) })
  | some t =>
    if (it.top tree).isNone then some (false, it)
    else do
      let it ← it.moveNext ps (tree.winner t)
      let it := { it with t := some (tree.replayGames t it.nodes) }
      return ((it.top tree).isSome, it)

/-- The loop removes duplicate entries. -/
def next (ps : ∀ i, Postings (S i)) : ℕ → MergedPostings S tree.T →
    Option (Bool × MergedPostings S tree.T)
  | 0, _ => none
  | fuel + 1, it => do
    match ← it.treeNext tree ps with
    | (false, it) => return (false, it)
    | (true, it) =>
      let newItem := (it.top tree).getD 0
      if newItem ≠ it.cur then return (true, { it with cur := newItem }) else next ps fuel it

def seek (ps : ∀ i, Postings (S i)) : ℕ → MergedPostings S tree.T → ℕ →
    Option (Bool × MergedPostings S tree.T)
  | 0, _, _ => none
  | fuel + 1, it, id =>
    -- `IsEmpty` initializes the tree.
    let it := { it with t := some (it.tree' tree) }
    match it.top tree with
    | none => some (false, it)
    | some v =>
      if v < id then do
        let w := tree.winner (it.tree' tree)
        let (ok, s) ← (ps w).seek (it.p w) id
        -- `Fix`
        let nodes := Function.update it.nodes w (if ok then some ((ps w).atRef s) else none)
        seek ps fuel { it with
          p := Function.update it.p w s
          nodes := nodes
          t := some (tree.replayGames (it.tree' tree) nodes) } id
      else some (true, { it with cur := v })

/-- `newMergedPostings`: the tree calls `Next` on every sequence. -/
def new (ps : ∀ i, Postings (S i)) (p : ∀ i, S i) : Option (MergedPostings S tree.T) :=
  (List.finRange n).foldlM (fun it i => it.moveNext ps i) ⟨p, fun _ => none, none, 0⟩

end MergedPostings

def mergedPostings {n : ℕ} {S : Fin n → Type} (tree : LoserTree n) (ps : ∀ i, Postings (S i))
    (fuel : ℕ) : Postings (MergedPostings S tree.T) where
  next := MergedPostings.next tree ps fuel
  seek := MergedPostings.seek tree ps fuel
  atRef it := it.cur

/-! ### Difference -/

structure RemovedPostings (F R : Type) where
  full : F
  remove : R
  cur : ℕ
  initialized : Bool
  fok : Bool
  rok : Bool

namespace RemovedPostings

variable {F R : Type} (pf : Postings F) (pr : Postings R)

/-- `rp.cur = fcur; rp.fok = rp.full.Next(); return true`. -/
def take (rp : RemovedPostings F R) : Option (Bool × RemovedPostings F R) := do
  let (fok, full) ← pf.next rp.full
  return (true, { rp with cur := pf.atRef rp.full, full := full, fok := fok })

def loop : ℕ → RemovedPostings F R → Option (Bool × RemovedPostings F R)
  | 0, _ => none
  | fuel + 1, rp =>
    if ¬rp.fok then some (false, rp)
    else if ¬rp.rok then rp.take pf
    else if pf.atRef rp.full < pr.atRef rp.remove then rp.take pf
    else if pr.atRef rp.remove < pf.atRef rp.full then do
      -- Forward the remove postings to the right position.
      let (rok, remove) ← pr.seek rp.remove (pf.atRef rp.full)
      loop fuel { rp with remove := remove, rok := rok }
    else do
      -- Skip the current posting.
      let (fok, full) ← pf.next rp.full
      loop fuel { rp with full := full, fok := fok }

def next (fuel : ℕ) (rp : RemovedPostings F R) : Option (Bool × RemovedPostings F R) :=
  if rp.initialized then rp.loop pf pr fuel
  else do
    let (fok, full) ← pf.next rp.full
    let (rok, remove) ← pr.next rp.remove
    loop pf pr fuel ⟨full, remove, rp.cur, true, fok, rok⟩

def seek (fuel : ℕ) (rp : RemovedPostings F R) (id : ℕ) :
    Option (Bool × RemovedPostings F R) :=
  if rp.cur ≥ id then some (true, rp)
  else do
    let (fok, full) ← pf.seek rp.full id
    let (rok, remove) ← pr.seek rp.remove id
    next pf pr fuel ⟨full, remove, rp.cur, true, fok, rok⟩

end RemovedPostings

def removedPostings {F R : Type} (pf : Postings F) (pr : Postings R) (fuel : ℕ) :
    Postings (RemovedPostings F R) where
  next := RemovedPostings.next pf pr fuel
  seek := RemovedPostings.seek pf pr fuel
  atRef rp := rp.cur

/-! ### Expressions -/

/-- What a caller writes. -/
inductive Query
  | list (refs : List ℕ)
  | bigEndian (refs : List ℕ)
  | intersect (n : ℕ) (its : Fin n → Query)
  | merge (n : ℕ) (its : Fin n → Query)
  | without (full drop : Query)

/-- What the constructors return. -/
inductive Obj
  | empty
  | list (refs : List ℕ)
  | bigEndian (refs : List ℕ)
  | intersect (n : ℕ) (its : Fin (n + 2) → Obj)
  | merged (n : ℕ) (its : Fin (n + 2) → Obj)
  | removed (full remove : Obj)

/-- `p == EmptyPostings()`. -/
def Obj.isEmpty : Obj → Bool
  | .empty => true
  | _ => false

/-- `Intersect`. -/
def mkIntersect : (n : ℕ) → (Fin n → Obj) → Obj
  | 0, _ => .empty
  | 1, its => its 0
  | n + 2, its =>
    if (List.finRange (n + 2)).any fun i => (its i).isEmpty then .empty else .intersect n its

/-- `Merge`. -/
def mkMerge : (n : ℕ) → (Fin n → Obj) → Obj
  | 0, _ => .empty
  | 1, its => its 0
  | n + 2, its => .merged n its

/-- `Without`. -/
def mkWithout (full drop : Obj) : Obj :=
  if full.isEmpty then .empty else if drop.isEmpty then full else .removed full drop

def Query.build : Query → Obj
  | .list refs => .list refs
  | .bigEndian refs => .bigEndian refs
  | .intersect n its => mkIntersect n fun i => (its i).build
  | .merge n its => mkMerge n fun i => (its i).build
  | .without full drop => mkWithout full.build drop.build

variable (be : Postings BigEndianPostings) (tree : ∀ n, LoserTree (n + 2)) (fuel : ℕ)

/-- The states of an iterator. -/
def Obj.State : Obj → Type
  | .empty => Unit
  | .list _ => ListPostings
  | .bigEndian _ => BigEndianPostings
  | .intersect _ its => IntersectPostings fun i => (its i).State
  | .merged n its => MergedPostings (fun i => (its i).State) (tree n).T
  | .removed full remove => RemovedPostings full.State remove.State

/-- The methods of an iterator, where `be` are those of the lists in the index file. -/
def Obj.postingsOver : (o : Obj) → Postings (o.State tree)
  | .empty => emptyPostings
  | .list _ => listPostings
  | .bigEndian _ => be
  | .intersect _ its => intersectPostings (fun i => (its i).postingsOver) fuel
  | .merged n its => mergedPostings (tree n) (fun i => (its i).postingsOver) fuel
  | .removed full remove => removedPostings full.postingsOver remove.postingsOver fuel

/-- All of a family of results. -/
def sequenceFin {n : ℕ} {S : Fin n → Type} (f : ∀ i, Option (S i)) : Option (∀ i, S i) :=
  if h : ∀ i, (f i).isSome then some fun i => (f i).get (h i) else none

/-- The state of a new iterator. -/
def Obj.newOver : (o : Obj) → Option (o.State tree)
  | .empty => some ()
  | .list refs => some (⟨refs, 0⟩ : ListPostings)
  | .bigEndian refs => some (⟨bigEndianBytes refs, 0⟩ : BigEndianPostings)
  | .intersect _ its => (sequenceFin fun i => (its i).newOver).map fun arr => ⟨arr, 0⟩
  | .merged n its =>
    (sequenceFin fun i => (its i).newOver).bind
      (MergedPostings.new (tree n) fun i => (its i).postingsOver be tree fuel)
  | .removed full remove => do
    return ⟨← full.newOver, ← remove.newOver, 0, false, false, false⟩

abbrev Obj.postings (o : Obj) : Postings (o.State tree) :=
  o.postingsOver bigEndianPostings tree fuel

abbrev Obj.new (o : Obj) : Option (o.State tree) :=
  o.newOver bigEndianPostings tree fuel

/-- One call. -/
def Postings.call {S : Type} (p : Postings S) (s : S) : Cursor.Call ℕ → Option (Bool × S)
  | .next => p.next s
  | .seek v => p.seek s v

/-- What a sequence of calls shows, up to and including the first false. -/
def Postings.run {S : Type} (p : Postings S) : S → List (Cursor.Call ℕ) → Option (List (Option ℕ))
  | _, [] => some []
  | s, op :: ops => do
    match ← p.call s op with
    | (false, _) => return [none]
    | (true, s) => return some (p.atRef s) :: (← p.run s ops)

/-- Build the iterator of a query and make the calls. -/
def Query.runOver (q : Query) (ops : List (Cursor.Call ℕ)) : Option (List (Option ℕ)) := do
  (q.build.postingsOver be tree fuel).run (← q.build.newOver be tree fuel) ops

def Query.run (q : Query) (ops : List (Cursor.Call ℕ)) : Option (List (Option ℕ)) :=
  q.runOver bigEndianPostings tree fuel ops

/-- The set-theoretic result. -/
def Query.denote : Query → Set ℕ
  | .list refs => {x | x ∈ refs}
  | .bigEndian refs => {x | x ∈ refs}
  | .intersect n its => {x | 0 < n ∧ ∀ i, x ∈ (its i).denote}
  | .merge _ its => {x | ∃ i, x ∈ (its i).denote}
  | .without full drop => full.denote \ drop.denote

end Prometheus.Index
