import Mathlib

/-!
# The in-memory postings index

`MemPostings` of `tsdb/index/postings.go`: for each label pair the list of the series that carry it
(`m`), and for each label name its values (`lvs`). `Delete` runs in two phases and gives the mutex
away after every 512 items, so that `Add`s get in between.

Go's maps are `Finmap`s; the order in which `range` visits one is not determined by the source, so
that the steps of `Delete` leave it open. `Sys.Step` are the steps of a `Delete` in progress, and
`Run` puts the calls together: an `Add` is possible whenever the mutex is free.

`live` is what the index is for: which series there are, and with which labels, after a list of
calls. A single invariant covers the whole run. `Indexes p S dirty` says that the index holds the
set `S l` of ids for each label `l`, and that the values of every name outside `dirty` are listed.
The code's operations move its two parameters:

* `addFor` inserts into one `S l` (`Indexes.addFor`);
* `process` removes the deleted ids from one `S l` and may make a name dirty (`Indexes.process`);
* the second phase makes a name clean again (`Indexes.updateValues`).

While labels are being processed, `S l` lies between the live ids and the live and deleted ones
(`Between`), and equals the former for labels that are done.
-/

namespace Prometheus.Index

open List Function Option

open Finmap hiding mem_keys mem_singleton

/-! ### The model -/

structure Label where
  name : String
  value : String
  deriving DecidableEq, Repr

/-- The key of the list of all series. -/
def allPostingsKey : Label := ⟨"", ""⟩

/-- A label set: no label twice, and all labels proper, unlike the key that stands for all. -/
structure Labels where
  toList : List Label
  nodup : toList.Nodup
  key_not_mem : allPostingsKey ∉ toList

/-- `MemPostings`, without its lock. -/
structure MemPostings where
  m : Finmap fun _ : String => Finmap fun _ : String => List ℕ
  lvs : Finmap fun _ : String => List String
  ordered : Bool

def newMemPostings : MemPostings := ⟨∅, ∅, true⟩

/-- The loop that repairs order violations, at index `i`. -/
def repairOrder (list : List ℕ) : ℕ → List ℕ
  | 0 => list
  | i + 1 =>
    let a := list.getD (i + 1) 0
    let b := list.getD i 0
    if a ≥ b then list else repairOrder ((list.set (i + 1) b).set i a) i

namespace MemPostings

variable (p : MemPostings)

/-- `p.m[l.Name][l.Value]`. -/
def get (l : Label) : Option (List ℕ) :=
  (p.m.lookup l.name).bind fun nm => nm.lookup l.value

def addFor (id : ℕ) (l : Label) : MemPostings :=
  let nm := (p.m.lookup l.name).getD ∅
  let vm := nm.lookup l.value
  let lvs :=
    if vm.isNone then p.lvs.insert l.name ((p.lvs.lookup l.name).getD [] ++ [l.value]) else p.lvs
  let list := vm.getD [] ++ [id]
  let list := if p.ordered then repairOrder list (list.length - 1) else list
  { p with m := p.m.insert l.name (nm.insert l.value list), lvs := lvs }

def add (id : ℕ) (lset : Labels) : MemPostings :=
  (lset.toList.foldl (fun p l => p.addFor id l) p).addFor id allPostingsKey

/-- The closure `process` of `Delete`; the names that lose a value are collected. -/
def process (deleted : Finset ℕ) (affectedLabelNames : Finset String)
    (l : Label) : MemPostings × Finset String :=
  let repl := ((p.get l).getD []).filter (· ∉ deleted)
  match p.m.lookup l.name with
  | some nm =>
    if 0 < repl.length then
      ({ p with m := p.m.insert l.name (nm.insert l.value repl) }, affectedLabelNames)
    else
      ({ p with m := p.m.insert l.name (nm.erase l.value) }, insert l.name affectedLabelNames)
  -- Without the inner map there is nothing to replace, and deleting from a nil map does nothing.
  | none => (p, insert l.name affectedLabelNames)

/-- The body of the second loop of `Delete`. `values` are the keys of the inner map, in the order
in which they are visited. -/
def updateValues (name : String) (values : List String) : MemPostings :=
  if ((p.m.lookup name).getD ∅).keys = ∅ then
    { p with m := p.m.erase name, lvs := p.lvs.erase name }
  else { p with lvs := p.lvs.insert name values }

end MemPostings

/-- Where a `Delete` is. The mutex is free in `idle` and at the two pauses. -/
inductive Phase
  | idle
  /-- Ranging over `affected`: the labels to come, and the number of those done. -/
  | labels (deleted : Finset ℕ) (todo : List Label) (i : ℕ) (affectedLabelNames : Finset String)
  | labelsPause (deleted : Finset ℕ) (todo : List Label) (i : ℕ)
    (affectedLabelNames : Finset String)
  /-- Ranging over `affectedLabelNames`. -/
  | names (deleted : Finset ℕ) (todo : List String) (i : ℕ)
  /-- The pause comes before the name it is made at. -/
  | namesPause (deleted : Finset ℕ) (name : String) (todo : List String) (i : ℕ)

/-- The postings, and how far a `Delete` has got. -/
structure Sys where
  p : MemPostings
  phase : Phase

/-- `order` is an order in which `range` may visit the keys. -/
def RangeOrder {α : Type} [DecidableEq α] (order : List α) (keys : Finset α) : Prop :=
  order.Nodup ∧ order.toFinset = keys

lemma RangeOrder.mem_iff {α : Type} [DecidableEq α] {order : List α} {keys : Finset α}
    (h : RangeOrder order keys) (a : α) : a ∈ order ↔ a ∈ keys := by
  rw [← h.2, List.mem_toFinset]

/-- The mutex is free for an `Add` of `id`; while a `Delete` is in progress, only for a series that
is not being deleted. -/
def Phase.Free (id : ℕ) : Phase → Prop
  | .idle => True
  | .labelsPause deleted _ _ _ => id ∉ deleted
  | .namesPause deleted _ _ _ => id ∉ deleted
  | _ => False

/-- The steps of a `Delete` in progress. -/
inductive Sys.Step : Sys → Sys → Prop
  | label {p : MemPostings} {deleted : Finset ℕ} {l : Label} {todo : List Label} {i : ℕ}
      {names : Finset String} :
      Step ⟨p, .labels deleted (l :: todo) i names⟩
        ⟨(p.process deleted names l).1,
          if (i + 1) % 512 = 0 then .labelsPause deleted todo (i + 1) (p.process deleted names l).2
          else .labels deleted todo (i + 1) (p.process deleted names l).2⟩
  | lockLabels {p : MemPostings} {deleted : Finset ℕ} {todo : List Label} {i : ℕ}
      {names : Finset String} :
      Step ⟨p, .labelsPause deleted todo i names⟩ ⟨p, .labels deleted todo i names⟩
  | all {p : MemPostings} {deleted : Finset ℕ} {i : ℕ} {names : Finset String}
      {order : List String}
      (horder : RangeOrder order (p.process deleted names allPostingsKey).2) :
      Step ⟨p, .labels deleted [] i names⟩
        ⟨(p.process deleted names allPostingsKey).1, .names deleted order 0⟩
  | pauseName {p : MemPostings} {deleted : Finset ℕ} {name : String} {todo : List String} {i : ℕ}
      (hi : (i + 1) % 512 = 0) :
      Step ⟨p, .names deleted (name :: todo) i⟩ ⟨p, .namesPause deleted name todo (i + 1)⟩
  | name {p : MemPostings} {deleted : Finset ℕ} {name : String} {todo : List String} {i : ℕ}
      {values : List String} (hi : (i + 1) % 512 ≠ 0)
      (hvalues : RangeOrder values ((p.m.lookup name).getD ∅).keys) :
      Step ⟨p, .names deleted (name :: todo) i⟩
        ⟨p.updateValues name values, .names deleted todo (i + 1)⟩
  | lockName {p : MemPostings} {deleted : Finset ℕ} {name : String} {todo : List String} {i : ℕ}
      {values : List String} (hvalues : RangeOrder values ((p.m.lookup name).getD ∅).keys) :
      Step ⟨p, .namesPause deleted name todo i⟩ ⟨p.updateValues name values, .names deleted todo i⟩
  | done {p : MemPostings} {deleted : Finset ℕ} {i : ℕ} : Step ⟨p, .names deleted [] i⟩ ⟨p, .idle⟩

/-- A call. -/
inductive Call
  | add (id : ℕ) (lset : Labels)
  | delete (deleted : Finset ℕ) (affected : Finset Label)

/-- The series there are after the calls, the last one first. -/
def live : List Call → ℕ → Option Labels
  | [] => fun _ => none
  | .add id lset :: calls => Function.update (live calls) id (some lset)
  | .delete deleted _ :: calls => fun id => if id ∈ deleted then none else live calls id

/-- The states reachable by a list of calls. An added id is a new one, and the labels of a deleted
series are among the affected ones. -/
inductive Run : List Call → Sys → Prop
  | new : Run [] ⟨newMemPostings, .idle⟩
  | add {calls : List Call} {p : MemPostings} {phase : Phase} {id : ℕ} {lset : Labels}
      (run : Run calls ⟨p, phase⟩) (hfree : phase.Free id) (hnew : live calls id = none) :
      Run (.add id lset :: calls) ⟨p.add id lset, phase⟩
  | delete {calls : List Call} {p : MemPostings} {deleted : Finset ℕ} {affected : Finset Label}
      {order : List Label} (run : Run calls ⟨p, .idle⟩)
      (haffected : ∀ id ∈ deleted, ∀ lset, live calls id = some lset →
        ∀ l ∈ lset.toList, l ∈ affected)
      (horder : RangeOrder order affected) :
      Run (.delete deleted affected :: calls) ⟨p, .labels deleted order 0 ∅⟩
  | step {calls : List Call} {s s' : Sys} (run : Run calls s) (hstep : s.Step s') : Run calls s'

/-! ### Order of a list -/

/-- The loop moves the last element to its place. -/
lemma repairOrder_spec {xs ys : List ℕ} {x : ℕ} (h : (xs ++ ys).Pairwise (· < ·))
    (hx : x ∉ xs) (hys : ∀ y ∈ ys, x < y) :
    (repairOrder (xs ++ x :: ys) xs.length).Pairwise (· < ·) ∧
      (repairOrder (xs ++ x :: ys) xs.length).Perm (x :: (xs ++ ys)) := by
  induction xs using reverseRecOn generalizing ys with
  | nil =>
    refine ⟨pairwise_cons.2 ⟨hys, h⟩, List.Perm.refl _⟩
  | append_singleton zs z ih =>
    have hlist : zs ++ [z] ++ x :: ys = zs ++ z :: x :: ys := by simp
    have hx' : (zs ++ z :: x :: ys).getD (zs.length + 1) 0 = x := by simp
    have hz : (zs ++ z :: x :: ys).getD zs.length 0 = z := by simp
    have hset : ((zs ++ z :: x :: ys).set (zs.length + 1) z).set zs.length x =
        zs ++ x :: z :: ys := by simp
    rw [append_assoc, singleton_append] at h
    rw [hlist, length_append, length_singleton, repairOrder, hx', hz, hset]
    by_cases hle : x ≥ z
    · have hlt : z < x := lt_of_le_of_ne hle (by rintro rfl; simp at hx)
      rw [if_pos hle]
      obtain ⟨hzs, hzys, hcross⟩ := pairwise_append.1 h
      refine ⟨pairwise_append.2 ⟨hzs, ?_, ?_⟩, ?_⟩
      · obtain ⟨hall, hys'⟩ := pairwise_cons.1 hzys
        refine pairwise_cons.2 ⟨?_, pairwise_cons.2 ⟨hys, hys'⟩⟩
        rintro y (_ | ⟨_, hy⟩)
        exacts [hlt, hall y hy]
      · rintro w hw y hy
        have hwz := hcross w hw z (by simp)
        rcases mem_cons.1 hy with rfl | hy
        · exact hwz
        rcases mem_cons.1 hy with rfl | hy
        · exact hwz.trans hlt
        · exact hcross w hw y (mem_cons_of_mem _ hy)
      · rw [← hlist]
        exact perm_middle
    · rw [if_neg hle]
      have hxz : x < z := not_le.1 hle
      have hys' : ∀ y ∈ z :: ys, x < y := by
        rintro y (_ | ⟨_, hy⟩)
        exacts [hxz, hys y hy]
      obtain ⟨hsorted, hperm⟩ := ih h (fun hmem => hx (by simp [hmem])) hys'
      exact ⟨hsorted, by simpa using hperm⟩

/-! ### The invariant -/

/-- The index holds the ids `S l` for each label `l`, and lists the values of every name outside
`dirty`. -/
structure Indexes (p : MemPostings) (S : Label → Set ℕ) (dirty : Set String) : Prop where
  ordered : p.ordered = true
  sorted : ∀ l ids, p.get l = some ids → ids.Pairwise (· < ·) ∧ ids ≠ []
  mem : ∀ l id, id ∈ (p.get l).getD [] ↔ id ∈ S l
  inner : ∀ name ∉ dirty, p.m.lookup name ≠ some ∅
  values_nodup : ∀ name ∉ dirty, ((p.lvs.lookup name).getD []).Nodup
  values : ∀ name ∉ dirty, ∀ v, v ∈ (p.lvs.lookup name).getD [] ↔ (p.get ⟨name, v⟩).isSome

namespace MemPostings

variable (p : MemPostings)

/-- What a write to `m` under a name changes. -/
lemma get_insert (name : String) (nm : Finmap fun _ : String => List ℕ)
    (lvs : Finmap fun _ : String => List String) (l : Label) :
    ({ p with m := p.m.insert name nm, lvs := lvs } : MemPostings).get l =
      if l.name = name then nm.lookup l.value else p.get l := by
  by_cases h : l.name = name
  · simp only [get, if_pos h]
    rw [h, lookup_insert, bind_some]
  · simp [get, h, lookup_insert_of_ne]

lemma lookup_getD (name v : String) : ((p.m.lookup name).getD ∅).lookup v = p.get ⟨name, v⟩ := by
  unfold get
  cases p.m.lookup name <;> simp

lemma get_addFor {p : MemPostings} (hord : p.ordered = true) (id : ℕ) (l l' : Label) :
    (p.addFor id l).get l' = if l' = l then
        some (repairOrder ((p.get l).getD [] ++ [id]) ((p.get l).getD []).length)
      else p.get l' := by
  have hget : ((p.m.lookup l.name).getD ∅).lookup l.value = p.get l := p.lookup_getD _ _
  rw [addFor, get_insert, hget, hord]
  by_cases hl : l' = l
  · subst hl
    simp
  rw [if_neg hl]
  by_cases hname : l'.name = l.name
  · have hvalue : l'.value ≠ l.value := by
      intro hvalue
      cases l
      cases l'
      simp_all
    rw [if_pos hname, lookup_insert_of_ne _ hvalue, p.lookup_getD, ← hname]
  · rw [if_neg hname]

lemma lookup_lvs_addFor (id : ℕ) (l : Label) (name : String) :
    ((p.addFor id l).lvs.lookup name).getD [] =
      if name = l.name ∧ p.get l = none then (p.lvs.lookup name).getD [] ++ [l.value]
      else (p.lvs.lookup name).getD [] := by
  have hget : ((p.m.lookup l.name).getD ∅).lookup l.value = p.get l := p.lookup_getD _ _
  simp only [addFor, hget, isNone_iff_eq_none]
  by_cases hnone : p.get l = none
  · by_cases hname : name = l.name
    · subst hname
      simp [hnone]
    · simp [hnone, hname, lookup_insert_of_ne]
  · simp [hnone]

/-- A value written or erased under the name of `l`, seen from another label. -/
private lemma get_of_ne {p : MemPostings} {l l' : Label} (hl : l' ≠ l)
    {nm nm' : Finmap fun _ : String => List ℕ} (hnm : p.m.lookup l.name = some nm)
    (heq : ∀ v ≠ l.value, nm'.lookup v = nm.lookup v) :
    ({ p with m := p.m.insert l.name nm' } : MemPostings).get l' = p.get l' := by
  rw [get_insert]
  split
  case isTrue hname =>
    have hvalue : l'.value ≠ l.value := by
      intro hvalue
      cases l
      cases l'
      simp_all
    rw [heq _ hvalue, get, hname, hnm, bind_some]
  case isFalse => rfl

variable (deleted : Finset ℕ)

variable (names : Finset String)

lemma get_process (l l' : Label) : (p.process deleted names l).1.get l' = if l' = l then
        (p.get l).bind fun ids =>
          if ids.filter (· ∉ deleted) = [] then none else some (ids.filter (· ∉ deleted))
      else p.get l' := by
  unfold process
  cases hnm : p.m.lookup l.name with
  | none =>
    have hget : p.get l = none := by rw [get, hnm, bind_none]
    by_cases hl : l' = l
    · simp [hl, hget]
    · simp [hl]
  | some nm =>
    dsimp only
    by_cases hl : l' = l
    · subst hl
      cases hids : p.get l' with
      | none => simp [get_insert]
      | some ids =>
        rw [getD_some, bind_some]
        generalize ids.filter (· ∉ deleted) = repl
        cases repl <;> simp [get_insert]
    · rw [if_neg hl]
      split
      case isTrue => exact get_of_ne hl hnm fun v hv => lookup_insert_of_ne _ hv
      case isFalse => exact get_of_ne hl hnm fun v hv => lookup_erase_ne hv

/-- What `process` leaves alone, and which names it notes: unless the label keeps a list, its
name. -/
lemma process_cases (l : Label) :
    (p.process deleted names l).1.lvs = p.lvs ∧ (p.process deleted names l).1.ordered = p.ordered ∧
      (∀ name ≠ l.name, (p.process deleted names l).1.m.lookup name = p.m.lookup name) ∧
      ((p.process deleted names l).2 = insert l.name names ∨
        (p.process deleted names l).2 = names ∧ (p.get l).isSome ∧
          ((p.process deleted names l).1.get l).isSome) := by
  unfold process
  cases hnm : p.m.lookup l.name with
  | none => exact ⟨rfl, rfl, fun _ _ => rfl, .inl rfl⟩
  | some nm =>
    dsimp only
    split
    case isFalse => exact ⟨rfl, rfl, fun _ hname => lookup_insert_of_ne _ hname, .inl rfl⟩
    case isTrue hpos =>
      refine ⟨rfl, rfl, fun _ hname => lookup_insert_of_ne _ hname, .inr ⟨rfl, ?_, ?_⟩⟩
      · cases hids : p.get l with
        | none => simp [hids] at hpos
        | some ids => rfl
      · simp [get_insert]

end MemPostings

namespace Indexes

variable {p : MemPostings} {S : Label → Set ℕ} {dirty : Set String} {id : ℕ}

variable (h : Indexes p S dirty)
include h

/-- `addFor` inserts the id into the list of the label. -/
theorem addFor {l : Label} (hid : id ∉ S l) :
    Indexes (p.addFor id l) (update S l (insert id (S l))) dirty := by
  have hget := p.get_addFor h.ordered id l
  -- the list of `l`, after the append and the repair
  have hsorted : ((p.get l).getD []).Pairwise (· < ·) := by
    cases hl : p.get l with
    | none => exact List.Pairwise.nil
    | some ids => exact (h.sorted l ids hl).1
  have hnil : ∀ y ∈ ([] : List ℕ), id < y := by simp
  obtain ⟨hrepair, hperm⟩ := repairOrder_spec
    (by simpa using hsorted) (fun hmem => hid ((h.mem l id).1 hmem)) hnil
  rw [append_nil] at hperm
  refine ⟨h.ordered, ?_, ?_, ?_, ?_, ?_⟩
  · intro l' ids hids
    rw [hget] at hids
    by_cases hl : l' = l
    · rw [if_pos hl] at hids
      cases hids
      exact ⟨hrepair, fun hnil => by simpa [hnil] using hperm.length_eq⟩
    · rw [if_neg hl] at hids
      exact h.sorted l' ids hids
  · intro l' id'
    rw [hget]
    by_cases hl : l' = l
    · rw [if_pos hl, hl, update_self, getD_some, hperm.mem_iff, mem_cons, h.mem, Set.mem_insert_iff]
    · rw [if_neg hl, update_of_ne hl, h.mem]
  · intro name hname hempty
    by_cases hl : name = l.name
    · subst hl
      have hl := hget l
      rw [MemPostings.get, hempty, if_pos rfl] at hl
      simp at hl
    · refine h.inner name hname ?_
      rwa [MemPostings.addFor, lookup_insert_of_ne _ hl] at hempty
  · intro name hname
    rw [p.lookup_lvs_addFor]
    split
    case isTrue hc =>
      obtain ⟨rfl, hnone⟩ := hc
      -- the value is new in `m`, hence in the list
      have hfresh : l.value ∉ (p.lvs.lookup l.name).getD [] := by
        rw [h.values _ hname]
        simp [hnone]
      exact nodup_append.2 ⟨h.values_nodup _ hname, nodup_singleton _, by
        rintro v hv w hw rfl
        exact hfresh (mem_singleton.1 hw ▸ hv)⟩
    case isFalse => exact h.values_nodup name hname
  · intro name hname v
    rw [p.lookup_lvs_addFor, hget]
    have hv := h.values name hname v
    by_cases hl : (⟨name, v⟩ : Label) = l
    · subst hl
      by_cases hnone : p.get ⟨name, v⟩ = none
      · simp [hnone]
      · simpa [hnone] using hv.2 (isSome_iff_ne_none.2 hnone)
    rw [if_neg hl]
    split
    case isTrue hc =>
      have hne : v ≠ l.value := by
        rintro rfl
        exact hl (by rw [hc.1])
      rw [mem_append, hv, mem_singleton]
      simp [hne]
    case isFalse => exact hv

lemma mono {dirty' : Set String} (hsub : dirty ⊆ dirty') : Indexes p S dirty' where
  __ := h
  inner name hname := h.inner name fun hd => hname (hsub hd)
  values_nodup name hname := h.values_nodup name fun hd => hname (hsub hd)
  values name hname := h.values name fun hd => hname (hsub hd)

lemma congr {S' : Label → Set ℕ} (hS : ∀ l i, i ∈ S' l ↔ i ∈ S l) : Indexes p S' dirty :=
  { h with mem := fun l id => (h.mem l id).trans (hS l id).symm }

omit h

/-- `process` removes the deleted ids from the list of the label. Where nothing is left of it, the
name is noted. -/
theorem process {names : Finset String} (h : Indexes p S names) (deleted : Finset ℕ) (l : Label) :
    Indexes (p.process deleted names l).1 (update S l (S l \ deleted))
      (p.process deleted names l).2 := by
  have hget := p.get_process deleted names l
  obtain ⟨hlvs, hord, hother, hnames⟩ := p.process_cases deleted names l
  -- a name that is not noted keeps all of its values
  have hsome : ∀ name ∉ (p.process deleted names l).2, name ∉ names ∧ ∀ v,
      ((p.process deleted names l).1.get ⟨name, v⟩).isSome = (p.get ⟨name, v⟩).isSome := by
    intro name hname
    rcases hnames with hins | ⟨hsame, hold, hnew⟩
    · rw [hins, Finset.mem_insert, not_or] at hname
      refine ⟨hname.2, fun v => ?_⟩
      rw [MemPostings.get, hother name hname.1]
      rfl
    refine ⟨hsame ▸ hname, fun v => ?_⟩
    by_cases hl : (⟨name, v⟩ : Label) = l
    · rw [hl, hold, hnew]
    · rw [hget, if_neg hl]
  refine ⟨hord.trans h.ordered, ?_, ?_, ?_, ?_, ?_⟩
  · intro l' ids hids
    rw [hget] at hids
    split at hids
    case isFalse => exact h.sorted l' ids hids
    case isTrue =>
      obtain ⟨orig, horig, hrepl⟩ := bind_eq_some_iff.1 hids
      split at hrepl
      case isTrue => cases hrepl
      case isFalse hne =>
        cases hrepl
        exact ⟨(h.sorted l orig horig).1.filter _, hne⟩
  · intro l' id
    rw [hget]
    by_cases hl : l' = l
    · rw [if_pos hl, hl, update_self, Set.mem_sdiff, ← h.mem]
      cases p.get l with
      | none => simp
      | some orig =>
        rw [bind_some, getD_some]
        split
        case isTrue hnil =>
          simp_all
        case isFalse => simp
    · rw [if_neg hl, update_of_ne hl, h.mem]
  · intro name hname hempty
    by_cases hl : name = l.name
    · rcases hnames with hins | ⟨-, -, hnew⟩
      · simp [hins, hl] at hname
      · rw [MemPostings.get, ← hl, hempty] at hnew
        simp at hnew
    · exact h.inner name (hsome name hname).1 ((hother name hl).symm.trans hempty)
  · intro name hname
    rw [hlvs]
    exact h.values_nodup name (hsome name hname).1
  · intro name hname v
    rw [hlvs, (hsome name hname).2 v]
    exact h.values name (hsome name hname).1 v

variable (h : Indexes p S dirty)
include h

/-- The second phase lists the values of a name anew, or drops the name. -/
theorem updateValues {name : String} {values : List String}
    (hvalues : RangeOrder values ((p.m.lookup name).getD ∅).keys) :
    Indexes (p.updateValues name values) S (dirty \ {name}) := by
  have hother : ∀ {n}, n ∉ dirty \ {name} → n ≠ name → n ∉ dirty :=
    fun hn hne hd => hn ⟨hd, hne⟩
  have hmem : ∀ v, v ∈ values ↔ (p.get ⟨name, v⟩).isSome := by
    intro v
    rw [hvalues.mem_iff, Finmap.mem_keys, ← Finmap.lookup_isSome, p.lookup_getD]
  unfold MemPostings.updateValues
  split
  case isTrue hempty =>
    have hnone : ∀ v, p.get ⟨name, v⟩ = none := by
      intro v
      rw [← p.lookup_getD, Finmap.lookup_eq_none, ← Finmap.mem_keys, hempty]
      simp
    have hget : ∀ l, (⟨p.m.erase name, p.lvs.erase name, p.ordered⟩ : MemPostings).get l =
        p.get l := by
      intro l
      by_cases hl : l.name = name
      · subst hl
        rw [hnone]
        simp [MemPostings.get]
      · simp [MemPostings.get, lookup_erase_ne hl]
    refine ⟨h.ordered, ?_, ?_, ?_, ?_, ?_⟩
    · exact fun l ids hids => h.sorted l ids ((hget l).symm.trans hids)
    · exact fun l id => by rw [hget, h.mem]
    · intro n hn
      by_cases hne : n = name
      · subst hne
        simp
      · simpa [lookup_erase_ne hne] using h.inner n (hother hn hne)
    · intro n hn
      by_cases hne : n = name
      · subst hne
        simp
      · simpa [lookup_erase_ne hne] using h.values_nodup n (hother hn hne)
    · intro n hn v
      rw [hget]
      by_cases hne : n = name
      · subst hne
        simp [hnone]
      · simpa [lookup_erase_ne hne] using h.values n (hother hn hne) v
  case isFalse hne =>
    refine ⟨h.ordered, h.sorted, h.mem, ?_, ?_, ?_⟩
    · intro n hn hempty
      by_cases hn' : n = name
      · subst hn'
        exact hne (by rw [show p.m.lookup n = some ∅ from hempty, getD_some, keys_empty])
      · exact h.inner n (hother hn hn') hempty
    · intro n hn
      by_cases hn' : n = name
      · subst hn'
        simpa using hvalues.1
      · simpa [lookup_insert_of_ne _ hn'] using h.values_nodup n (hother hn hn')
    · intro n hn v
      change v ∈ _ ↔ (p.get ⟨n, v⟩).isSome
      by_cases hn' : n = name
      · subst hn'
        simpa using hmem v
      · simpa [lookup_insert_of_ne _ hn'] using h.values n (hother hn hn') v

/-- `Add` inserts the id into the lists of all labels of the series, one after the other. -/
lemma foldl_addFor {ls : List Label} (hnodup : ls.Nodup) (hid : ∀ l ∈ ls, id ∉ S l) :
    Indexes (ls.foldl (fun p l => p.addFor id l) p) (fun l => {i | i ∈ S l ∨ i = id ∧ l ∈ ls})
      dirty := by
  induction ls generalizing p S with
  | nil => simpa using h
  | cons l ls ih =>
    obtain ⟨hl, hnodup⟩ := nodup_cons.1 hnodup
    have hne : ∀ l' ∈ ls, l' ≠ l := fun l' hl' heq => hl (heq ▸ hl')
    have hstep := ih (h.addFor (hid l mem_cons_self)) hnodup (by
      intro l' hl'
      rw [update_of_ne (hne l' hl')]
      exact hid l' (mem_cons_of_mem _ hl'))
    refine hstep.congr fun l' i => ?_
    by_cases heq : l' = l
    · subst heq
      simp [hl, or_comm]
    · simp [heq]

lemma add (hid : ∀ l, id ∉ S l) (lset : Labels) : Indexes (p.add id lset)
      (fun l => {i | i ∈ S l ∨ i = id ∧ (l ∈ lset.toList ∨ l = allPostingsKey)}) dirty := by
  have hlist := h.foldl_addFor lset.nodup fun l _ => hid l
  have hkey : id ∉ {i | i ∈ S allPostingsKey ∨ i = id ∧ allPostingsKey ∈ lset.toList} := by
    simp [hid, lset.key_not_mem]
  refine (hlist.addFor hkey).congr fun l i => ?_
  by_cases hl : l = allPostingsKey
  · subst hl
    simp [lset.key_not_mem, or_comm]
  · simp [hl]

end Indexes

/-! ### Runs -/

/-- The ids of the series that carry a label; every series carries the key for all. -/
def holders (series : ℕ → Option Labels) (l : Label) : Set ℕ :=
  {id | ∃ lset, series id = some lset ∧ (l ∈ lset.toList ∨ l = allPostingsKey)}

/-- Lists from which some of the deleted ids are still to be removed. -/
structure Between (series : ℕ → Option Labels) (deleted : Finset ℕ) (todo : List Label)
    (S : Label → Set ℕ) : Prop where
  lower : ∀ l, holders series l ⊆ S l
  upper : ∀ l, S l ⊆ holders series l ∪ deleted
  done : ∀ l ∉ todo, l ≠ allPostingsKey → S l = holders series l
  gone : ∀ id ∈ deleted, series id = none

/-- The invariant of a run, phase by phase. -/
def Sys.Inv (series : ℕ → Option Labels) (s : Sys) : Prop :=
  match s.phase with
  | .idle => Indexes s.p (holders series) ∅
  | .labels deleted todo _ names | .labelsPause deleted todo _ names =>
    ∃ S, Between series deleted todo S ∧ Indexes s.p S names
  | .names deleted todo _ =>
    (∀ id ∈ deleted, series id = none) ∧ Indexes s.p (holders series) {n | n ∈ todo}
  | .namesPause deleted name todo _ =>
    (∀ id ∈ deleted, series id = none) ∧ Indexes s.p (holders series) {n | n ∈ name :: todo}

variable {series : ℕ → Option Labels} {id : ℕ} {deleted : Finset ℕ}

lemma mem_holders_update (hnew : series id = none) (lset : Labels) (l : Label) (i : ℕ) :
    i ∈ holders (update series id (some lset)) l ↔
      i ∈ holders series l ∨ i = id ∧ (l ∈ lset.toList ∨ l = allPostingsKey) := by
  by_cases hi : i = id
  · subst hi
    simp [holders, hnew]
  · simp [holders, hi]

variable {S : Label → Set ℕ} {todo : List Label}

theorem Between.process (h : Between series deleted todo S) (l : Label) (todo' : List Label)
    (htodo : ∀ l' ∈ todo, l' = l ∨ l' ∈ todo') :
    S l \ deleted = holders series l ∧
      Between series deleted todo' (update S l (S l \ deleted)) := by
  have hl : S l \ deleted = holders series l := by
    ext id
    constructor
    · rintro ⟨hid, hdel⟩
      exact (h.upper l hid).resolve_right hdel
    · rintro ⟨lset, hlset, hmem⟩
      exact ⟨h.lower l ⟨lset, hlset, hmem⟩, fun hdel => by simp [h.gone id hdel] at hlset⟩
  refine ⟨hl, ?_, ?_, ?_, h.gone⟩ <;> intro l' <;> by_cases heq : l' = l
  · simp [heq, hl]
  · rw [update_of_ne heq]
    exact h.lower l'
  · simp [heq, hl]
  · rw [update_of_ne heq]
    exact h.upper l'
  · simp [heq, hl]
  · rw [update_of_ne heq]
    exact fun hl' hkey => h.done l' (fun hmem => (htodo l' hmem).elim heq hl') hkey

lemma Between.add (h : Between series deleted todo S) (hnew : series id = none)
    (hid : id ∉ deleted) (lset : Labels) :
    Between (update series id (some lset)) deleted todo
      (fun l => {i | i ∈ S l ∨ i = id ∧ (l ∈ lset.toList ∨ l = allPostingsKey)}) where
  lower l i hi := by
    rw [mem_holders_update hnew] at hi
    exact hi.imp_left fun hi => h.lower l hi
  upper l i hi := by
    rw [Set.mem_union, mem_holders_update hnew]
    rcases hi with hi | hi
    · exact (h.upper l hi).imp_left .inl
    · exact .inl (.inr hi)
  done l hl hkey := by
    ext i
    rw [mem_holders_update hnew, ← h.done l hl hkey]
    rfl
  gone i hi := by
    have hne : i ≠ id := fun heq => hid (heq ▸ hi)
    rw [update_of_ne hne]
    exact h.gone i hi

/-- A step of `Delete` keeps the invariant. -/
lemma Sys.Inv.step {s s' : Sys} (h : s.Inv series) (hstep : s.Step s') : s'.Inv series := by
  cases hstep with
  | @label p deleted l todo i names =>
    obtain ⟨S, hS, hidx⟩ := h
    have hbetween := (hS.process l todo (by simp)).2
    have hidx' := hidx.process deleted l
    split <;> exact ⟨_, hbetween, hidx'⟩
  | lockLabels => exact h
  | @all p deleted i names order horder =>
    obtain ⟨S, hS, hidx⟩ := h
    obtain ⟨hkey, hbetween⟩ := hS.process allPostingsKey [] (by simp)
    refine ⟨hS.gone, ((hidx.process deleted allPostingsKey).congr fun l i => ?_).mono ?_⟩
    · by_cases hl : l = allPostingsKey
      · rw [hl, update_self, hkey]
      · rw [update_of_ne hl, hS.done l (by simp) hl]
    · exact fun n hn => (horder.mem_iff n).2 hn
  | pauseName => exact h
  | @name p deleted name todo i values hi hvalues =>
    exact ⟨h.1, (h.2.updateValues hvalues).mono fun n hn => (mem_cons.1 hn.1).resolve_left hn.2⟩
  | @lockName p deleted name todo i values hvalues =>
    exact ⟨h.1, (h.2.updateValues hvalues).mono fun n hn => (mem_cons.1 hn.1).resolve_left hn.2⟩
  | done => exact h.2.mono (by simp)

/-- An `Add` keeps the invariant, in whichever phase it gets the mutex. -/
lemma Sys.Inv.add {p : MemPostings} {phase : Phase}
    (h : Sys.Inv series ⟨p, phase⟩) (hfree : phase.Free id) (hnew : series id = none)
    (lset : Labels) : Sys.Inv (update series id (some lset)) ⟨p.add id lset, phase⟩ := by
  have hid : ∀ l, id ∉ holders series l := by
    rintro l ⟨lset', hlset', -⟩
    simp [hnew] at hlset'
  have hadd : ∀ {dirty}, Indexes p (holders series) dirty →
      Indexes (p.add id lset) (holders (update series id (some lset))) dirty :=
    fun hidx => (hidx.add hid lset).congr fun l i => mem_holders_update hnew lset l i
  have hgone : ∀ {deleted : Finset ℕ}, id ∉ deleted → (∀ i ∈ deleted, series i = none) →
      ∀ i ∈ deleted, update series id (some lset) i = none := by
    intro deleted hdel hnone i hi
    have hne : i ≠ id := fun heq => hdel (heq ▸ hi)
    rw [update_of_ne hne]
    exact hnone i hi
  cases phase with
  | idle => exact hadd h
  | labels => exact hfree.elim
  | labelsPause deleted todo i names =>
    obtain ⟨S, hS, hidx⟩ := h
    exact ⟨_, hS.add hnew hfree lset,
      hidx.add (fun l hl => (hS.upper l hl).elim (hid l) hfree) lset⟩
  | names => exact hfree.elim
  | namesPause deleted name todo i => exact ⟨hgone hfree h.1, hadd h.2⟩

/-- The start of a `Delete`: all deleted ids are still to be removed, and only from labels that
will be visited. -/
lemma Sys.Inv.delete {p : MemPostings} (h : Sys.Inv series ⟨p, .idle⟩) {affected : Finset Label}
    {order : List Label}
    (haffected : ∀ id ∈ deleted, ∀ lset, series id = some lset → ∀ l ∈ lset.toList, l ∈ affected)
    (horder : RangeOrder order affected) :
    Sys.Inv (fun id => if id ∈ deleted then none else series id)
      ⟨p, .labels deleted order 0 ∅⟩ := by
  refine ⟨holders series, ⟨?_, ?_, ?_, ?_⟩, h.mono (by simp)⟩
  · rintro l id ⟨lset, hlset, hl⟩
    by_cases hid : id ∈ deleted
    · simp [hid] at hlset
    · exact ⟨lset, by simpa [hid] using hlset, hl⟩
  · rintro l id ⟨lset, hlset, hl⟩
    by_cases hid : id ∈ deleted
    · exact .inr hid
    · exact .inl ⟨lset, by simpa [hid] using hlset, hl⟩
  · intro l hl hkey
    ext id
    by_cases hid : id ∈ deleted
    · have hnot : ∀ lset, series id = some lset → l ∉ lset.toList := fun lset hlset hmem =>
        hl ((horder.mem_iff l).2 (haffected id hid lset hlset l hmem))
      simpa [holders, hid, hkey] using hnot
    · simp [holders, hid]
  · intro id hid
    simp [hid]

/-- The invariant holds throughout every run. -/
lemma Run.inv {calls : List Call} {s : Sys} (h : Run calls s) : s.Inv (live calls) := by
  induction h with
  | new =>
    refine ⟨rfl, ?_, ?_, ?_, ?_, ?_⟩ <;> simp [newMemPostings, MemPostings.get, holders, live]
  | add _ hfree hnew ih => exact ih.add hfree hnew _
  | delete _ haffected horder ih => exact ih.delete haffected horder
  | step _ hstep ih => exact ih.step hstep

/-- Whenever no `Delete` is in progress, the three structures agree with the series there are: each
label pair has the increasing list of exactly the ids that carry it, the key for all that of all
ids, nothing empty is kept, and each name lists its values once. -/
theorem memPostings_consistent {calls : List Call} {p : MemPostings} (h : Run calls ⟨p, .idle⟩) :
    (∀ l ids, p.get l = some ids → ids.Pairwise (· < ·) ∧ ids ≠ []) ∧
      (∀ l ≠ allPostingsKey, ∀ id, id ∈ (p.get l).getD [] ↔
        ∃ lset, live calls id = some lset ∧ l ∈ lset.toList) ∧
      (∀ id, id ∈ (p.get allPostingsKey).getD [] ↔ (live calls id).isSome) ∧
      (∀ name, p.m.lookup name ≠ some ∅) ∧
      ∀ name, ((p.lvs.lookup name).getD []).Nodup ∧
        ∀ v, v ∈ (p.lvs.lookup name).getD [] ↔ v ∈ ((p.m.lookup name).getD ∅).keys := by
  have hidx : Indexes p (holders (live calls)) ∅ := h.inv
  refine ⟨hidx.sorted, ?_, ?_, fun name => hidx.inner name (Set.notMem_empty name), ?_⟩
  · intro l hl id
    rw [hidx.mem]
    simp [holders, hl]
  · intro id
    rw [hidx.mem]
    simp [holders, isSome_iff_exists]
  · intro name
    refine ⟨hidx.values_nodup name (Set.notMem_empty name), fun v => ?_⟩
    rw [hidx.values name (Set.notMem_empty name), Finmap.mem_keys, ← Finmap.lookup_isSome,
      p.lookup_getD]

/-- Of three series one is deleted, which shares a label with one of the others and a name with the
other: the first label keeps the second series, and of the values of the name one is left. -/
theorem memPostings_consistent_delete : ∃ p,
    Run [.delete {1} {⟨"a", "b"⟩, ⟨"c", "d"⟩}, .add 3 ⟨[⟨"c", "e"⟩], by decide, by decide⟩,
        .add 2 ⟨[⟨"a", "b"⟩], by decide, by decide⟩,
        .add 1 ⟨[⟨"a", "b"⟩, ⟨"c", "d"⟩], by decide, by decide⟩] ⟨p, .idle⟩ ∧
      (∀ id, id ∈ (p.get ⟨"a", "b"⟩).getD [] ↔ id = 2) ∧
      ∀ id, id ∈ (p.get allPostingsKey).getD [] ↔ id = 2 ∨ id = 3 := by
  have hfirst : Run [.add 1 ⟨[⟨"a", "b"⟩, ⟨"c", "d"⟩], by decide, by decide⟩] _ :=
    .add .new trivial rfl
  have hsecond : Run (.add 2 ⟨[⟨"a", "b"⟩], by decide, by decide⟩ :: _) _ := .add hfirst trivial rfl
  have hthird : Run (.add 3 ⟨[⟨"c", "e"⟩], by decide, by decide⟩ :: _) _ := .add hsecond trivial rfl
  have hdelete : Run (.delete {1} {⟨"a", "b"⟩, ⟨"c", "d"⟩} :: _)
      ⟨_, .labels {1} [⟨"a", "b"⟩, ⟨"c", "d"⟩] 0 ∅⟩ :=
    .delete hthird (by simp [live]) ⟨by decide, by decide⟩
  have hlabels := (hdelete.step .label).step .label
  have hall : Run _ ⟨_, .names {1} ["c"] 0⟩ := hlabels.step (.all ⟨by decide, by decide⟩)
  have hname := hall.step (.name (by decide) (show RangeOrder ["e"] _ from ⟨by decide, by decide⟩))
  have hrun := hname.step .done
  obtain ⟨-, hlabel, hkey, -⟩ := memPostings_consistent hrun
  refine ⟨_, hrun, fun id => ?_, fun id => ?_⟩
  · rw [hlabel _ (by decide)]
    by_cases h2 : id = 2
    · simp [live, h2]
    · by_cases h3 : id = 3 <;> by_cases h1 : id = 1 <;> simp [live, h1, h2, h3]
  · rw [hkey]
    by_cases h2 : id = 2
    · simp [live, h2]
    · by_cases h3 : id = 3 <;> by_cases h1 : id = 1 <;> simp [live, h1, h2, h3]

end Prometheus.Index
