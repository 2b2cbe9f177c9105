import Prometheus.Labels.Stringlabels
import Prometheus.Lib.Memo
import Prometheus.Promql.Ast

/-!
# The labels of the result of a binary operation

`resultMetric` of `promql/engine.go`, with the `Builder` of `model/labels`. Results are kept in a
map, whose keys are the strings of the two label sets, one behind the other. Nothing in a key says
where the second one starts: two pairs have the same key if and only if their labels are the same,
one after the other.

Of two such pairs, one has some labels on the left that the other one has on the right. Whether the
results are the same depends on these labels alone (`newMetric_eq_iff`). A label on the left is in
the result unless the operator or the matching takes it (`Stripped`), and a label on the right is in
it if `Include` names it. So they have to be labels that are in no result (`Absent`).
-/

namespace Prometheus.Promql

open Utf8 Stringlabels List

/-! ### The code -/

def changesMetricSchema : BinaryOp → Bool
  | .add | .sub | .div | .mul | .pow | .mod | .atan2 => true
  | _ => false

/-- The bytes of a name in a query. -/
def nameBytes (s : String) : Bytes :=
  s.toUTF8.toList.map (·.toBitVec)

/-- The names of the labels that `Metadata` has. -/
def metadataNames : List Bytes :=
  ["__name__", "__type__", "__unit__"].map nameBytes

/-- The labels of the left-hand side that the operator and the matching take. -/
def stripLabels (op : BinaryOp) (matching : VectorMatching) (b : Builder) : Builder :=
  let names := matching.matchingLabels.map nameBytes
  -- empty `Metadata` deletes its labels
  let b := if changesMetricSchema op then metadataNames.foldl .delete b else b
  match matching.card, matching.on with
  | .oneToOne, true => b.keep names
  | .oneToOne, false => names.foldl .delete b
  | _, _ => b

/-- A label in `Include` is taken from the right-hand side. -/
def takeLabel (rhs : Labels) (b : Builder) (ln : Bytes) : Builder :=
  let v := Stringlabels.get rhs ln
  if v ≠ [] then b.set ln v else b.delete ln

/-- The names in `Include`. -/
def included (matching : VectorMatching) : List Bytes :=
  matching.include.map nameBytes

/-- What `resultMetric` computes for a pair of label sets whose result is not kept. -/
def newMetric (op : BinaryOp) (matching : VectorMatching) (pair : Labels × Labels) : Labels :=
  ((included matching).foldl (takeLabel pair.2)
    (stripLabels op matching (Builder.reset pair.1))).labels

/-- The key of a pair. -/
def resultKey (pair : Labels × Labels) : Bytes :=
  bytes pair.1 ++ bytes pair.2

/-- What `resultMetric` returns for one pair after the other, from when no result is kept. -/
def resultMetrics (op : BinaryOp) (matching : VectorMatching) :
    List (Labels × Labels) → List Labels :=
  Memo.calls resultKey (newMetric op matching) fun _ => none

/-! ### Labels that do not matter -/

/-- The operator or the matching takes a name from the labels of the left-hand side. -/
def Stripped (op : BinaryOp) (matching : VectorMatching) (n : Bytes) : Prop :=
  changesMetricSchema op = true ∧ n ∈ metadataNames ∨
    matching.card = .oneToOne ∧
      (n ∈ matching.matchingLabels.map nameBytes ↔ matching.on = false)

/-- A label is in no result, on whichever side it is. -/
def Absent (op : BinaryOp) (matching : VectorMatching) (l : Label) : Prop :=
  l.value = [] ∨ l.name ∉ included matching ∧ Stripped op matching l.name

instance (op : BinaryOp) (matching : VectorMatching) : DecidablePred (Absent op matching) :=
  fun _ => inferInstanceAs (Decidable (_ ∨ _ ∧ (_ ∨ _)))

/-! ### What is in a result -/

variable {op : BinaryOp} {matching : VectorMatching} {b : Builder} {n : Bytes} {rhs : Labels}

/-- Names are deleted where nothing is set. -/
lemma foldl_delete (hadd : b.add = []) (ns : List Bytes) :
    ns.foldl .delete b = { b with del := b.del ++ ns } := by
  induction ns generalizing b with
  | nil => simp
  | cons m ns ih =>
    rw [foldl_cons, ih (by simp [Builder.delete, hadd])]
    simp [Builder.delete, hadd]

/-- The labels that the operator and the matching take from those of the left-hand side. -/
lemma stripLabels_spec (op : BinaryOp) (matching : VectorMatching) (hadd : b.add = []) :
    (stripLabels op matching b).base = b.base ∧
    (stripLabels op matching b).add = [] ∧ ∀ l ∈ b.base, l.name ∈ (stripLabels op matching b).del ↔
      l.name ∈ b.del ∨ Stripped op matching l.name := by
  have hschema : (if changesMetricSchema op then metadataNames.foldl .delete b else b) =
      { b with del := b.del ++ if changesMetricSchema op then metadataNames else [] } := by
    split_ifs
    · exact foldl_delete hadd _
    · simp
  simp only [stripLabels, Stripped, hschema]
  generalize matching.matchingLabels.map nameBytes = names
  have hdel : ∀ n : Bytes, n ∈ (if changesMetricSchema op then metadataNames else []) ↔
      changesMetricSchema op = true ∧ n ∈ metadataNames := fun n => by
    split_ifs with h <;> simp [h]
  rcases matching.card with _ | _ | _ | _ <;> rcases matching.on with _ | _ <;>
    simp only [reduceCtorEq, false_and, or_false, true_and, hadd, mem_append, hdel, implies_true]
  · rw [foldl_delete (by rfl)]
    simp [hdel]
  · refine ⟨rfl, rfl, fun l hl => ?_⟩
    simp only [Builder.keep, mem_append, hdel, mem_filter, decide_eq_true_eq, or_assoc]
    simp [mem_map_of_mem hl]

/-- What `takeLabel` does to the labels that are set and to the names that are deleted. -/
lemma takeLabel_spec (hadd : ∀ a ∈ b.add, get rhs a.name ≠ []) (m : Bytes) :
    (takeLabel rhs b m).base = b.base ∧
      (∀ n, n ∈ (takeLabel rhs b m).del ↔ n ∈ b.del ∨ n = m ∧ get rhs n = []) ∧
      ∀ n, n ∈ (takeLabel rhs b m).add.map (·.name) ↔
        n ∈ b.add.map (·.name) ∨ n = m ∧ get rhs n ≠ [] := by
  by_cases hm : get rhs m = []
  · -- There is no label to take, and none has been set.
    have hnone : ∀ a ∈ b.add, ¬decide (a.name = m) = true := fun a ha heq =>
      hadd a ha (of_decide_eq_true heq ▸ hm)
    have hstep : takeLabel rhs b m = { b with del := b.del ++ [m] } := by
      simp only [takeLabel, hm, ne_eq, not_true, if_false, Builder.delete,
        eraseP_of_forall_not hnone]
    rw [hstep]
    refine ⟨rfl, fun n => ?_, fun n => ?_⟩
    · rw [mem_append, mem_singleton]
      exact or_congr_right ⟨fun h => ⟨h, h ▸ hm⟩, And.left⟩
    · exact ⟨.inl, fun h => h.resolve_right fun ⟨heq, hne⟩ => hne (heq ▸ hm)⟩
  · have hset : takeLabel rhs b m = b.set m (get rhs m) := by simp [takeLabel, hm]
    have hiff : ∀ n, (n = m ∧ get rhs n ≠ []) ↔ n = m := fun n =>
      ⟨And.left, fun h => ⟨h, h ▸ hm⟩⟩
    have hdel : ∀ n, n ∈ b.del ∨ n = m ∧ get rhs n = [] ↔ n ∈ b.del := fun n =>
      ⟨fun h => h.resolve_right fun ⟨heq, hnil⟩ => hm (heq ▸ hnil), .inl⟩
    simp only [hset, hiff, hdel, Builder.set, if_neg hm]
    split_ifs with hany
    · -- It has been taken before.
      refine ⟨rfl, fun _ => Iff.rfl, fun n => ?_⟩
      have hnames : (b.add.map fun a => if a.name = m then ⟨m, get rhs m⟩ else a).map (·.name) =
          b.add.map (·.name) := by
        rw [map_map]
        refine map_congr_left fun a _ => ?_
        by_cases ha : a.name = m <;> simp [ha]
      rw [hnames]
      refine ⟨.inl, fun h => h.elim id ?_⟩
      rintro rfl
      simpa using hany
    · simp

/-- The loop over the labels in `Include`. -/
lemma foldl_takeLabel (rhs : Labels) (ns : List Bytes) (hadd : ∀ a ∈ b.add, get rhs a.name ≠ []) :
    (ns.foldl (takeLabel rhs) b).base = b.base ∧
      (∀ n, n ∈ (ns.foldl (takeLabel rhs) b).del ↔ n ∈ b.del ∨ n ∈ ns ∧ get rhs n = []) ∧
      ∀ n, n ∈ (ns.foldl (takeLabel rhs) b).add.map (·.name) ↔
        n ∈ b.add.map (·.name) ∨ n ∈ ns ∧ get rhs n ≠ [] := by
  induction ns generalizing b with
  | nil => simp
  | cons m ns ih =>
    obtain ⟨hbase, hdel, hnames⟩ := takeLabel_spec hadd m
    have hadd' : ∀ a ∈ (takeLabel rhs b m).add, get rhs a.name ≠ [] := by
      intro a ha
      rcases (hnames a.name).1 (mem_map_of_mem ha) with hn | hn
      · obtain ⟨a', ha', heq⟩ := mem_map.1 hn
        exact heq ▸ hadd a' ha'
      · exact hn.2
    obtain ⟨hbase', hdel', hnames'⟩ := ih hadd'
    rw [foldl_cons]
    refine ⟨hbase'.trans hbase, fun n => ?_, fun n => ?_⟩
    · rw [hdel', hdel, mem_cons]
      tauto
    · rw [hnames', hnames, mem_cons]
      tauto

/-- What is set depends on what is taken from the right-hand side only. -/
lemma add_foldl_takeLabel {b' : Builder} {rhs' : Labels} {ns : List Bytes} (hadd : b.add = b'.add)
    (hget : ∀ n ∈ ns, get rhs n = get rhs' n) :
    (ns.foldl (takeLabel rhs) b).add = (ns.foldl (takeLabel rhs') b').add := by
  induction ns generalizing b b' with
  | nil => exact hadd
  | cons m ns ih =>
    obtain ⟨hm, hget⟩ := forall_mem_cons.1 hget
    refine ih ?_ hget
    simp only [takeLabel, Builder.set, Builder.delete, hm, hadd]
    split_ifs <;> rfl

/-- The labels that are taken from the right-hand side, in order. -/
def taken (matching : VectorMatching) (rhs : Labels) : Labels :=
  ((included matching).foldl (takeLabel rhs) ⟨[], [], []⟩).add.insertionSort (·.name ≤ ·.name)

lemma mem_names_taken :
    n ∈ (taken matching rhs).map (·.name) ↔ n ∈ included matching ∧ get rhs n ≠ [] := by
  have hmem : n ∈ (taken matching rhs).map (·.name) ↔
      n ∈ ((included matching).foldl (takeLabel rhs) ⟨[], [], []⟩).add.map (·.name) :=
    ((perm_insertionSort _ _).map _).mem_iff
  rw [hmem, (foldl_takeLabel _ _ (by simp)).2.2]
  simp

/-- What is deleted from the left-hand side, and what is put into it. -/
lemma newMetric_eq (op : BinaryOp) (matching : VectorMatching) (rhs : Labels) {lhs : Labels}
    (hlhs : Ordered lhs) : ∃ del,
    newMetric op matching (lhs, rhs) = Builder.merge del lhs (taken matching rhs) ∧
      ∀ l ∈ lhs, l.name ∈ del ↔ l.value = [] ∨ Stripped op matching l.name ∨
        l.name ∈ included matching ∧ get rhs l.name = [] := by
  obtain ⟨hbase, hadd, hdel⟩ := stripLabels_spec op matching (b := Builder.reset lhs) rfl
  obtain ⟨hbase', hdel', -⟩ := foldl_takeLabel rhs (included matching)
    (b := stripLabels op matching (Builder.reset lhs)) (by simp [hadd])
  refine ⟨((included matching).foldl (takeLabel rhs)
    (stripLabels op matching (Builder.reset lhs))).del, ?_,
    fun l hl => ?_⟩
  · have htaken : ((included matching).foldl (takeLabel rhs)
        (stripLabels op matching (Builder.reset lhs))).add =
          ((included matching).foldl (takeLabel rhs) ⟨[], [], []⟩).add :=
      add_foldl_takeLabel hadd fun _ _ => rfl
    rw [newMetric, Builder.labels_eq, hbase', hbase, htaken]
    rfl
  · -- Labels with an empty value are deleted from the beginning.
    have hreset : l.name ∈ (Builder.reset lhs).del ↔ l.value = [] := by
      simp only [Builder.reset, mem_map, mem_filter, decide_eq_true_eq]
      refine ⟨fun ⟨l', ⟨hl', hnil⟩, hname⟩ => ?_, fun h => ⟨l, ⟨hl, h⟩, rfl⟩⟩
      rw [← get_of_mem hlhs hl, ← hname, get_of_mem hlhs hl', hnil]
    rw [hdel', hdel l hl, hreset, or_assoc]

/-- Labels between the two sides may be on either of them, if they are not in the result. -/
lemma newMetric_eq_iff {lhs ms rhs : Labels} (hl : Ordered (lhs ++ ms)) (hr : Ordered (ms ++ rhs)) :
    newMetric op matching (lhs, ms ++ rhs) = newMetric op matching (lhs ++ ms, rhs) ↔
      ∀ l ∈ ms, Absent op matching l := by
  obtain ⟨hlhs, -, hlt⟩ := hl.append
  obtain ⟨-, hrhs, hlt'⟩ := hr.append
  obtain ⟨del, heq, hdel⟩ := newMetric_eq op matching (ms ++ rhs) hlhs
  obtain ⟨del', heq', hdel'⟩ := newMetric_eq op matching rhs hl
  have hright : ∀ l ∈ ms, get rhs l.name = [] := fun l hlm => get_eq_nil fun r hrr hname =>
    List.lt_irrefl _ (hname ▸ hlt' l hlm r hrr)
  constructor
  · intro h l hlm
    by_cases hvalue : l.value = []
    · exact .inl hvalue
    refine .inr ?_
    have hget : get (ms ++ rhs) l.name = l.value := get_of_mem hr (mem_append_left _ hlm)
    have hmem : l ∈ lhs ++ ms := mem_append_right _ hlm
    have hnames := congrArg (l.name ∈ map (·.name) ·) h
    have hleft : l.name ∉ lhs.map (·.name) := fun hname => by
      obtain ⟨l', hl', hname⟩ := mem_map.1 hname
      exact List.lt_irrefl _ (hname ▸ hlt l' hl' l hlm)
    simp only [heq, heq', Builder.mem_names_merge, mem_names_taken, hget, hright l hlm, hleft,
      hdel' l hmem, mem_map_of_mem hmem] at hnames
    have hnames : l.name ∈ included matching ∧ ¬l.value = [] ↔
        ¬Stripped op matching l.name ∧ l.name ∉ included matching := by
      simpa [hvalue] using hnames
    have hnot : l.name ∉ included matching := fun hn => (hnames.1 ⟨hn, hvalue⟩).2 hn
    exact ⟨hnot, by_contra fun hs => hnot (hnames.2 ⟨hs, hnot⟩).1⟩
  · intro h
    have hget : ∀ n ∈ included matching, get (ms ++ rhs) n = get rhs n := by
      intro n hn
      by_cases hm : ∃ l ∈ ms ++ rhs, l.name = n
      · obtain ⟨l, hlm, rfl⟩ := hm
        rw [get_of_mem hr hlm]
        rcases mem_append.1 hlm with hlm | hlr
        · rw [hright l hlm]
          exact (h l hlm).resolve_right fun hdropped => hdropped.1 hn
        · rw [get_of_mem hrhs hlr]
      · push Not at hm
        rw [get_eq_nil hm, get_eq_nil fun l hlr => hm l (mem_append_right _ hlr)]
    have htaken : taken matching (ms ++ rhs) = taken matching rhs := by
      rw [taken, add_foldl_takeLabel rfl hget]
      rfl
    rw [heq, heq', htaken]
    refine Builder.merge_append (fun l hlh => ?_) fun l hlm => ?_
    · rw [hdel l hlh, hdel' l (mem_append_left _ hlh)]
      refine or_congr_right (or_congr_right (and_congr_right fun hn => ?_))
      rw [hget _ hn]
    · rw [hdel' l (mem_append_right _ hlm)]
      exact (h l hlm).imp_right fun hdropped => .inl hdropped.2

/-! ### Results that are kept -/

/-- Of two pairs with the same labels in a row, one has labels on the left that the other one has on
the right. -/
lemma newMetric_eq_iff_of_append_eq {p q : Labels × Labels} (hp : Ordered p.1 ∧ Ordered p.2)
    (hq : Ordered q.1 ∧ Ordered q.2) (h : p.1 ++ p.2 = q.1 ++ q.2) :
    newMetric op matching p = newMetric op matching q ↔
      ∀ l, (l ∈ p.1 ↔ l ∈ q.1) ∨ Absent op matching l := by
  -- The two cases are the same but for the order of the pairs.
  have hcase : ∀ {lhs ms : Labels}, Ordered (lhs ++ ms) →
      ((∀ l ∈ ms, Absent op matching l) ↔ ∀ l, (l ∈ lhs ↔ l ∈ lhs ++ ms) ∨
      Absent op matching l) := by
    intro lhs ms hordered
    have hdisjoint : ∀ l ∈ ms, l ∉ lhs := fun l hlm hlh =>
      List.lt_irrefl _ (hordered.append.2.2 l hlh l hlm)
    refine ⟨fun h l => ?_, fun h l hlm => ?_⟩
    · by_cases hlm : l ∈ ms
      · exact .inr (h l hlm)
      · exact .inl (by simp [hlm])
    · exact (h l).resolve_left fun hiff => hdisjoint l hlm (hiff.2 (mem_append_right _ hlm))
  obtain ⟨lhs, rhs⟩ := p
  obtain ⟨lhs', rhs'⟩ := q
  dsimp only at hp hq h ⊢
  rcases append_eq_append_iff.1 h with ⟨ms, rfl, rfl⟩ | ⟨ms, rfl, rfl⟩
  · rw [newMetric_eq_iff hq.1 hp.2, hcase hq.1]
  · rw [eq_comm, newMetric_eq_iff hp.1 hq.2, hcase hp.1]
    simp only [Iff.comm]

/-- **Each result is the one of its own pair**, if and only if any two pairs with the same labels in
a row differ only in labels that are in no result. -/
theorem resultMetrics_eq_iff (op : BinaryOp) (matching : VectorMatching)
    (pairs : List (Labels × Labels)) (hfits : ∀ pair ∈ pairs, Fits pair.1 ∧ Fits pair.2)
    (hordered : ∀ pair ∈ pairs, Ordered pair.1 ∧ Ordered pair.2) :
    resultMetrics op matching pairs = pairs.map (newMetric op matching) ↔
      pairs.Pairwise fun p q => p.1 ++ p.2 = q.1 ++ q.2 →
        ∀ l, (l ∈ p.1 ↔ l ∈ q.1) ∨ Absent op matching l := by
  have hkey : ∀ pair ∈ pairs, resultKey pair = bytes (pair.1 ++ pair.2) ∧ Fits (pair.1 ++ pair.2) :=
    fun pair hpair => ⟨flatMap_append.symm, forall_mem_append.2 (hfits pair hpair)⟩
  rw [resultMetrics, Memo.calls_eq_map_iff]
  simp only [reduceCtorEq, false_implies, implies_true, true_and]
  refine Pairwise.iff_of_mem fun {p q} hp hq => ?_
  have heq : resultKey p = resultKey q ↔ p.1 ++ p.2 = q.1 ++ q.2 := by
    rw [(hkey p hp).1, (hkey q hq).1]
    exact ⟨bytes_inj (hkey p hp).2 (hkey q hq).2, congrArg bytes⟩
  rw [heq]
  exact forall_congr' fun h => newMetric_eq_iff_of_append_eq (hordered p hp) (hordered q hq) h

/-- The name of a metric may be on either side of a product. -/
theorem resultMetrics_eq_iff_metric_names :
    let l : Label := ⟨nameBytes "__name__", [49]⟩
    resultMetrics .mul ⟨.manyToOne, [], true, []⟩ [([l], []), ([], [l]), ([l], [l])] =
      [[], [], []] := by
  intro l
  have hnil : Ordered [] := ⟨by simp, by simp⟩
  have hone : Ordered [l] := ⟨by simp, by decide +kernel⟩
  have habsent : Absent .mul ⟨.manyToOne, [], true, []⟩ l := by decide +kernel
  refine ((resultMetrics_eq_iff .mul ⟨.manyToOne, [], true, []⟩ _ (by unfold Fits; decide +kernel)
    ?_).2 ?_).trans (by decide +kernel)
  · simp [hone, hnil]
  · have hmoves : ∀ l', (l' ∈ [l] ↔ l' ∈ ([] : Labels)) ∨
        Absent .mul ⟨.manyToOne, [], true, []⟩ l' := by
      intro l'
      by_cases hl : l' = l
      · exact .inr (hl ▸ habsent)
      · exact .inl (by simp [hl])
    simpa using hmoves

/-- With `group_left(b)`: the labels of the first pair are all on the left, and so `b` is deleted.
The second pair has it on the right. -/
theorem resultMetrics_collision :
    let matching : VectorMatching := ⟨.manyToOne, [], true, ["b"]⟩
    let pairs : List (Labels × Labels) :=
      [([⟨[97], [49]⟩, ⟨[98], [50]⟩], []), ([⟨[97], [49]⟩], [⟨[98], [50]⟩])]
    resultMetrics .add matching pairs = [[⟨[97], [49]⟩], [⟨[97], [49]⟩]] ∧
      pairs.map (newMetric .add matching) = [[⟨[97], [49]⟩], [⟨[97], [49]⟩, ⟨[98], [50]⟩]] := by
  decide +kernel

end Prometheus.Promql
