import Prometheus.Lib.Transition
import Prometheus.Tsdb.ExemplarLinks

/-!
# The exemplar storage is a bounded queue

What the storage is for (`Fifo`): it keeps the exemplars that were accepted last, as many as it has
room for, and hands them out series by series. `circularExemplarStorage_refines_fifo` says that this
is what it does after any calls.
-/

namespace Prometheus.Exemplars

open Stringlabels Occurrences List Option Nat CircularExemplarStorage

/-! ### The queue -/

/-- A queue of some capacity, with all exemplars that it accepted since the capacity was last
changed and those it had then. -/
structure Fifo where
  capacity : ℕ
  accepted : List (Labels × Exemplar)

namespace Fifo

variable (R : ExemplarRuntime) (q : Fifo)

/-- The last exemplars that were accepted, up to the capacity. -/
def stored : List (Labels × Exemplar) :=
  q.accepted.drop (q.accepted.length - q.capacity)

variable (l : Labels)

/-- The stored exemplars of a series. -/
def ofSeries : List Exemplar :=
  (q.stored.filter fun x => x.1 = l).map Prod.snd

variable (e : Exemplar)

/-- An exemplar is accepted if it can come after the newest stored one of its series. -/
def validate : Except ExemplarError Unit :=
  if q.capacity = 0 then .error .exemplarsDisabled
  else validateAgainst R (q.ofSeries l).getLast? e

def add : Fifo :=
  match q.validate R l e with
  | .ok () => { q with accepted := q.accepted ++ [(l, e)] }
  | .error _ => q

/-- Duplicates are not errors. -/
def addResult : Except ExemplarError Unit :=
  match q.validate R l e with
  | .error .duplicateExemplar => .ok ()
  | result => result

/-- The newest of the stored exemplars are kept. -/
def resize (n : ℕ) : Fifo where
  capacity := n
  accepted := q.stored.drop (q.stored.length - n)

end Fifo

variable {α : Type}

/-- What is kept of a list with one more element can be told from what is kept of the list. -/
lemma drop_concat_eq (xs : List α) (x : α) (c : ℕ) : (xs ++ [x]).drop (xs.length + 1 - c) =
      (xs.drop (xs.length - c) ++ [x]).drop ((xs.drop (xs.length - c)).length + 1 - c) := by
  rw [← drop_append_of_le_length (sub_le _ _), drop_drop, length_drop]
  congr 1
  omega

variable {entry : CircularBufferEntry} {x : Labels × Exemplar}

namespace CircularExemplarStorage

/-- The exemplars that were written to the buffer are `h`, and the last of them are stored. -/
def Holds (ce : CircularExemplarStorage) (h : List (Labels × Exemplar)) : Prop :=
  Linked ce h [] (h.length - ce.exemplars.length)

variable (h : List (Labels × Exemplar))

/-- The exemplars of a series among those from a position on. -/
def ofSeries (a : ℕ) (l : Labels) : List Exemplar :=
  ((h.drop a).filter fun x => x.1 = l).map Prod.snd

lemma ofSeries_eq (a : ℕ) (l : Labels) :
    ofSeries h a l = ((positions l (h.map Prod.fst) a).filterMap (h[·]?)).map Prod.snd := by
  rw [ofSeries, filterMap_positions]

section Reads

variable {R : ExemplarRuntime} {ce : CircularExemplarStorage} {h : List (Labels × Exemplar)}
  {a v w p : ℕ} {l : Labels} {e : Exemplar}

/-! ### Following the links -/

/-- From slot `i` the links lead through exemplars to slot `k`, and end there. -/
inductive Chain (ce : CircularExemplarStorage) : ℕ → List Exemplar → ℕ → Prop
  | last {i entry} : ce.exemplars[i]? = some entry → entry.next = none →
    Chain ce i [entry.exemplar] i
  | link {i entry j es k} : ce.exemplars[i]? = some entry → entry.next = some j →
    Chain ce j es k → Chain ce i (entry.exemplar :: es) k

lemma ofSeries_eq_cons (hv : first l (h.map Prod.fst) a = some v)
    (hx : h[v]? = some x) : ofSeries h a l = x.2 :: ofSeries h (v + 1) l := by
  rw [ofSeries_eq, first_eq_some hv, filterMap_cons_some hx, map_cons, ofSeries_eq]

lemma Linked.chain (H : Linked ce h [] a) {b : ℕ} (hb : a ≤ b)
    (hv : first l (h.map Prod.fst) b = some v) (hw : last l (h.map Prod.fst) b = some w) :
    Chain ce (v % ce.exemplars.length) (ofSeries h b l) (w % ce.exemplars.length) := by
  -- Induction on how many exemplars are left; the next link leads to a later position.
  induction hn : h.length - b using Nat.strong_induction_on generalizing b v with
  | _ n ih =>
    obtain ⟨hbv, hkey⟩ := mem_of_first hv
    rw [getElem?_map, map_eq_some_iff] at hkey
    obtain ⟨x, hx, rfl⟩ := hkey
    have hvlt := (List.getElem?_eq_some_iff.1 hx).1
    obtain ⟨p, -, hslot⟩ := H.slot (hb.trans hbv) hx
    rw [append_nil] at hslot
    rw [ofSeries_eq_cons hv hx]
    rw [last, first_eq_some hv] at hw
    cases hnext : first x.1 (h.map Prod.fst) (v + 1) with
    | none =>
      have hnil := first_eq_none.1 hnext
      rw [hnil, getLast?_singleton, some.injEq] at hw
      subst hw
      rw [ofSeries_eq, hnil]
      exact .last hslot (by rw [hnext]; rfl)
    | some u =>
      have hlast : last x.1 (h.map Prod.fst) (v + 1) = some w := by
        rwa [last, ← getLast?_cons_of_ne_nil]
        rw [first_eq_some hnext]
        exact cons_ne_nil _ _
      exact .link hslot (by rw [hnext]; rfl) (ih _ (by omega) (by omega) hnext hlast rfl)

variable {i k : ℕ} {es : List Exemplar} {start stop : ℤ}

lemma Chain.ne_nil (H : Chain ce i es k) : es ≠ [] := by
  cases H <;> exact cons_ne_nil _ _

/-- The last exemplar of a chain is in the slot where it ends. -/
lemma Chain.getLast (H : Chain ce i es k) :
    ∃ entry, ce.exemplars[k]? = some entry ∧ es.getLast? = some entry.exemplar := by
  induction H with
  | last hi _ => exact ⟨_, hi, rfl⟩
  | link _ _ hchain ih =>
    obtain ⟨entry, hk, hes⟩ := ih
    exact ⟨entry, hk, by rwa [getLast?_cons_of_ne_nil hchain.ne_nil]⟩

lemma Chain.head (H : Chain ce i es k) :
    ∃ entry, ce.exemplars[i]? = some entry ∧ es.head? = some entry.exemplar := by
  cases H with
  | last hi _ => exact ⟨_, hi, rfl⟩
  | link hi _ _ => exact ⟨_, hi, rfl⟩

variable (H : ce.Holds h)
include H

/-- The exemplars of a series that has an entry. -/
lemma Holds.chain (hl : ce.index.lookup l = some p) :
    Chain ce (ce.heap p).oldest (ofSeries h (h.length - ce.exemplars.length) l)
      (ce.heap p).newest := by
  obtain ⟨v, hv, hold⟩ := Linked.oldest_eq H hl
  obtain ⟨w, hw⟩ := Linked.exists_last H hl
  rw [append_nil] at hv
  rw [hold, Linked.newest_eq H hl hw]
  exact Linked.chain H le_rfl hv hw

/-- The series with an entry are those with a stored exemplar. -/
lemma Holds.lookup_eq_none :
    ce.index.lookup l = none ↔ ofSeries h (h.length - ce.exemplars.length) l = [] := by
  constructor
  · intro hl
    rw [ofSeries_eq, Linked.positions_eq_nil H hl]
    rfl
  · intro hnil
    by_contra hne
    obtain ⟨p, hp⟩ := ne_none_iff_exists'.1 hne
    exact (H.chain hp).ne_nil hnil

lemma Holds.validateExemplar (hpos : ce.exemplars.length ≠ 0) :
    ce.validateExemplar R (ce.index.lookup l) e = some
      (validateAgainst R (ofSeries h (h.length - ce.exemplars.length) l).getLast? e) := by
  unfold CircularExemplarStorage.validateExemplar
  rw [if_neg hpos]
  cases hl : ce.index.lookup l with
  | none =>
    rw [H.lookup_eq_none.1 hl]
    rfl
  | some p =>
    obtain ⟨entry, hentry, hlast⟩ := (H.chain hl).getLast
    simp only [hentry, bind_eq_bind, bind_some, hlast]
    rfl

/-! ### Iterating -/

lemma Holds.go_eq {n u : ℕ} (hu : h.length ≤ u) (hn : u + n = h.length + ce.exemplars.length) :
    iterateExemplars.go ce n (u % ce.exemplars.length) =
      some (h.drop (u - ce.exemplars.length)) := by
  induction n generalizing u with
  | zero =>
    rw [iterateExemplars.go, drop_eq_nil_of_le (by omega)]
  | succ n ih =>
    have hrest := ih (u := u + 1) (by omega) (by omega)
    rw [← Nat.mod_add_mod] at hrest
    rw [iterateExemplars.go]
    by_cases hlt : u < ce.exemplars.length
    · -- The slots from the end of `h` on have not been used.
      obtain ⟨entry, hentry, href⟩ := Linked.free H hu hlt
      rw [mod_eq_of_lt hlt] at hrest ⊢
      rw [Nat.sub_eq_zero_of_le (by omega)] at hrest
      simp only [hentry, hrest, href, bind_eq_bind, bind_some]
      rw [Nat.sub_eq_zero_of_le hlt.le]
      rfl
    obtain ⟨v, rfl⟩ : ∃ v, u = v + ce.exemplars.length := ⟨u - ce.exemplars.length, by omega⟩
    have hv : v < h.length := by omega
    obtain ⟨p, hp, hslot⟩ := Linked.slot H (by omega) (getElem?_eq_getElem hv)
    rw [Nat.add_mod_right] at hrest ⊢
    rw [show v + ce.exemplars.length + 1 - ce.exemplars.length = v + 1 by omega] at hrest
    simp only [hslot, hrest, bind_eq_bind, bind_some, Linked.labels_eq H hp]
    rw [Nat.add_sub_cancel, drop_eq_getElem_cons hv]
    rfl

lemma Holds.iterateExemplars :
    ce.iterateExemplars = some (h.drop (h.length - ce.exemplars.length)) := by
  rw [CircularExemplarStorage.iterateExemplars, Linked.nextIndex_eq H]
  exact H.go_eq le_rfl rfl

omit H

/-! ### Selecting -/

/-- The exemplars between two times. -/
def inRange (start stop : ℤ) (es : List Exemplar) : List Exemplar :=
  es.filter fun e => start ≤ e.ts ∧ e.ts ≤ stop

lemma inRange_eq_nil (hout : ∀ e ∈ es, stop < e.ts ∨ e.ts < start) :
    inRange start stop es = [] := by
  refine filter_eq_nil_iff.2 fun e he => ?_
  have := hout e he
  simp only [decide_eq_true_eq]
  omega

/-- The loop may stop at the first exemplar that is too late, since later ones are no earlier. -/
lemma Chain.selectLoop {i k fuel : ℕ} (H : Chain ce i es k) (hentry : ce.exemplars[i]? = some entry)
    (hsorted : es.Pairwise (·.ts ≤ ·.ts)) (hfuel : es.length ≤ fuel) :
    ce.selectLoop start stop fuel entry = some (inRange start stop es) := by
  induction H generalizing fuel entry with
  | @last i entry' hi hnext =>
    obtain rfl : entry' = entry := some.inj (hi.symm.trans hentry)
    obtain ⟨fuel, rfl⟩ := Nat.exists_eq_add_of_le' hfuel
    rw [length_singleton, selectLoop]
    by_cases hstop : entry'.exemplar.ts ≤ stop <;> by_cases hstart : start ≤ entry'.exemplar.ts <;>
      simp [hstop, hstart, hnext, inRange]
  | @link i entry' j es k hi hnext hchain ih =>
    obtain rfl : entry' = entry := some.inj (hi.symm.trans hentry)
    obtain ⟨hle, hsorted⟩ := pairwise_cons.1 hsorted
    cases fuel with
    | zero => exact absurd hfuel (by simp)
    | succ fuel =>
      obtain ⟨next, hnext', -⟩ := hchain.head
      have hrest := ih hnext' hsorted (le_of_succ_le_succ hfuel)
      rw [selectLoop]
      by_cases hstop : entry'.exemplar.ts ≤ stop
      · by_cases hstart : start ≤ entry'.exemplar.ts <;>
          simp [hstop, hstart, hnext, hnext', hrest, inRange]
      rw [if_neg hstop, inRange_eq_nil]
      intro e he
      obtain rfl | he := mem_cons.1 he
      · omega
      · have := hle e he
        omega

/-- What a series with an entry adds to the results: its exemplars in the range, if there are any.
-/
lemma Holds.selectSeries (H : ce.Holds h) (hl : ce.index.lookup l = some p) (start stop : ℤ)
    (matchers : List (List Matcher))
    (hsorted : (ofSeries h (h.length - ce.exemplars.length) l).Pairwise (·.ts ≤ ·.ts)) :
    ce.selectSeries start stop matchers (ce.heap p) = some
      (if matchesSomeMatcherSet l matchers ∧
          inRange start stop (ofSeries h (h.length - ce.exemplars.length) l) ≠ [] then
        [⟨l, inRange start stop (ofSeries h (h.length - ce.exemplars.length) l)⟩]
      else []) := by
  have hchain := H.chain hl
  set es := ofSeries h (h.length - ce.exemplars.length) l with hes
  have hlen : es.length ≤ ce.exemplars.length := by
    rw [hes, ofSeries, length_map]
    refine (length_filter_le _ _).trans ?_
    rw [length_drop]
    omega
  obtain ⟨entry, hentry, hhead⟩ := hchain.head
  obtain ⟨newest, hnewest, hlast⟩ := hchain.getLast
  have hge : ∀ e ∈ es, entry.exemplar.ts ≤ e.ts := by
    obtain ⟨rest, hrest⟩ := head?_eq_some_iff.1 hhead
    intro e he
    rw [hrest] at he hsorted
    obtain rfl | he := mem_cons.1 he
    · exact le_rfl
    · exact (pairwise_cons.1 hsorted).1 e he
  have hle : ∀ e ∈ es, e.ts ≤ newest.exemplar.ts := by
    obtain ⟨init, hinit⟩ := getLast?_eq_some_iff.1 hlast
    intro e he
    rw [hinit] at he hsorted
    obtain he | he := mem_append.1 he
    · exact (pairwise_append.1 hsorted).2.2 e he _ (mem_singleton_self _)
    · rw [mem_singleton.1 he]
  rw [CircularExemplarStorage.selectSeries, hentry, Linked.labels_eq H hl]
  simp only [bind_eq_bind, bind_some]
  by_cases hstop : entry.exemplar.ts > stop
  · rw [if_pos hstop, inRange_eq_nil fun e he => .inl (lt_of_lt_of_le hstop (hge e he))]
    simp
  rw [if_neg hstop, hnewest, bind_some]
  by_cases hstart : newest.exemplar.ts < start
  · rw [if_pos hstart, inRange_eq_nil fun e he => .inr (lt_of_le_of_lt (hle e he) hstart)]
    simp
  rw [if_neg hstart, hchain.selectLoop hentry hsorted hlen]
  cases matchesSomeMatcherSet l matchers with
  | false => simp
  | true => cases inRange start stop es <;> simp

lemma mapM_eq_some {β : Type} {f : α → Option β} {g : α → β} {xs : List α}
    (hf : ∀ x ∈ xs, f x = some (g x)) : xs.mapM f = some (xs.map g) := by
  induction xs with
  | nil => rfl
  | cons x xs ih =>
    rw [mapM_cons, hf x mem_cons_self, ih fun y hy => hf y (mem_cons_of_mem x hy)]
    rfl

/-- The order in which the index is traversed lists each of its entries once. -/
lemma mem_traverse {m : Finmap fun _ : Labels => ℕ} {entry : Σ _ : Labels, ℕ} :
    entry ∈ R.traverse m ↔ m.lookup entry.1 = some entry.2 := by
  rw [← Multiset.mem_coe, R.coe_traverse, ← Finmap.mem_lookup_iff, mem_def]

lemma nodup_traverse (m : Finmap fun _ : Labels => ℕ) : ((R.traverse m).map Sigma.fst).Nodup := by
  have hm := m.nodupKeys
  rwa [← R.coe_traverse, Multiset.coe_nodupKeys] at hm

/-- **Select.** There is one result for each matching series with exemplars in the range, which has
just these. -/
lemma Holds.select (H : ce.Holds h) (start stop : ℤ) (matchers : List (List Matcher))
    (hsorted : ∀ l, (ofSeries h (h.length - ce.exemplars.length) l).Pairwise (·.ts ≤ ·.ts)) :
    ∃ res, ce.select R start stop matchers = some res ∧
      res.Pairwise (fun a b => CompareLe a.seriesLabels b.seriesLabels) ∧
      (res.map QueryResult.seriesLabels).Nodup ∧
      ∀ l es, ⟨l, es⟩ ∈ res ↔ matchesSomeMatcherSet l matchers ∧ es ≠ [] ∧
        es = inRange start stop (ofSeries h (h.length - ce.exemplars.length) l) := by
  unfold CircularExemplarStorage.select
  by_cases hzero : ce.exemplars.length = 0
  · refine ⟨[], by rw [if_pos hzero]; rfl, .nil, .nil, fun l es => ⟨nofun, ?_⟩⟩
    rintro ⟨-, hne, rfl⟩
    rw [ofSeries, hzero, Nat.sub_zero, drop_length] at hne
    exact absurd rfl hne
  set results : (Σ _ : Labels, ℕ) → List QueryResult := fun entry =>
    if matchesSomeMatcherSet entry.1 matchers ∧
        inRange start stop (ofSeries h (h.length - ce.exemplars.length) entry.1) ≠ [] then
      [⟨entry.1, inRange start stop (ofSeries h (h.length - ce.exemplars.length) entry.1)⟩]
    else [] with hresults
  have hmap : ((R.traverse ce.index).mapM fun entry =>
      ce.selectSeries start stop matchers (ce.heap entry.2)) =
        some ((R.traverse ce.index).map results) :=
    mapM_eq_some fun entry hentry =>
      H.selectSeries (mem_traverse.1 hentry) start stop matchers (hsorted entry.1)
  rw [if_neg hzero, hmap]
  refine ⟨_, rfl, R.sortsBy.pairwise _, ?_, fun l es => ?_⟩
  · rw [((R.sortsBy.perm _).map _).nodup_iff]
    refine List.Nodup.sublist ?_ (nodup_traverse (R := R) ce.index)
    -- Each entry leads to one result at most.
    generalize R.traverse ce.index = entries
    induction entries with
    | nil => exact .slnil
    | cons entry entries ih =>
      rw [map_cons, flatten_cons, map_append, map_cons]
      by_cases hentry : matchesSomeMatcherSet entry.1 matchers ∧
          inRange start stop (ofSeries h (h.length - ce.exemplars.length) entry.1) ≠ []
      · rw [hresults]
        simp only [if_pos hentry]
        exact ih.cons_cons _
      · rw [hresults]
        simp only [if_neg hentry]
        exact ih.cons _
  · rw [(R.sortsBy.perm _).mem_iff, mem_flatten]
    simp only [List.mem_map, exists_exists_and_eq_and, hresults, mem_traverse]
    constructor
    · rintro ⟨entry, -, hmem⟩
      split_ifs at hmem with hcond
      · cases mem_singleton.1 hmem
        exact ⟨hcond.1, hcond.2, rfl⟩
      · exact absurd hmem not_mem_nil
    · rintro ⟨hmatch, hne, rfl⟩
      have hsome : ce.index.lookup l ≠ none := by
        intro hnone
        rw [H.lookup_eq_none.1 hnone] at hne
        exact hne rfl
      obtain ⟨p, hp⟩ := ne_none_iff_exists'.1 hsome
      exact ⟨⟨l, p⟩, hp, by rw [if_pos ⟨hmatch, hne⟩]; exact mem_singleton_self _⟩

/-! ### Adding -/

lemma Holds.push (H : ce.Holds h) (hpos : 0 < ce.exemplars.length) (l : Labels) (e : Exemplar) :
    ∃ ce₁ p ce₂ ce', ce.link l = some (ce₁, p) ∧ ce₁.dropPrev = some ce₂ ∧
      ce₂.write e p = some ce' ∧ ce'.Holds (h ++ [(l, e)]) ∧
      ce'.exemplars.length = ce.exemplars.length := by
  obtain ⟨ce₁, p, hlink, H₁, hp, hlen₁⟩ := Linked.link H l e (by omega)
  by_cases hfree : h.length < ce.exemplars.length
  · have hzero : h.length - ce.exemplars.length = 0 := by omega
    rw [hzero] at H₁
    have hdrop := H₁.dropPrev_of_free (by rwa [hlen₁])
    obtain ⟨ce', hwrite, H', hlen, -⟩ := H₁.write hp (by omega)
    refine ⟨ce₁, p, ce₁, ce', hlink, hdrop, hwrite, ?_, hlen.trans hlen₁⟩
    rw [Holds, length_append, length_singleton]
    rwa [show h.length + 1 - ce'.exemplars.length = 0 by omega]
  · obtain ⟨ce₂, hdrop, H₂, hp₂, hlen₂⟩ := H₁.dropPrev hp (by omega) (by omega)
    obtain ⟨ce', hwrite, H', hlen, -⟩ := H₂.write hp₂ (by omega)
    refine ⟨ce₁, p, ce₂, ce', hlink, hdrop, hwrite, ?_, by omega⟩
    rw [Holds, length_append, length_singleton]
    rwa [show h.length + 1 - ce'.exemplars.length = h.length - ce.exemplars.length + 1 by omega]

/-! ### Resizing -/

/-- A slot of a buffer is not used, or it has an exemplar of a series and refers to an entry of the
series, where the entries below the address `fresh` are of the series `labels`. -/
def Refers (labels : ℕ → Labels) (fresh : ℕ) (entry : CircularBufferEntry) :
    Option (Labels × Exemplar) → Prop
  | none => entry.ref = none
  | some x => ∃ ref, entry.ref = some ref ∧ ref < fresh ∧ labels ref = x.1 ∧ entry.exemplar = x.2

lemma Linked.migrate (H : Linked ce h [] 0) (hroom : h.length < ce.exemplars.length) {ref : ℕ}
    (href : ref < ce.fresh)
    (hlabels : (ce.heap ref).seriesLabels = x.1) (hx : entry.exemplar = x.2) :
    ∃ ce', ce.migrate entry ref = some ce' ∧ Linked ce' (h ++ [x]) [] 0 ∧
      ce'.exemplars.length = ce.exemplars.length ∧ ce'.fresh = ce.fresh ∧
      ∀ i, (ce'.heap i).seriesLabels = (ce.heap i).seriesLabels := by
  obtain ⟨l, e⟩ := x
  subst hlabels hx
  cases hl : ce.index.lookup (ce.heap ref).seriesLabels with
  | none =>
    -- No entry of the new index is at this address, since they are of other series.
    have hunused : ∀ {l' p'}, ce.index.lookup l' = some p' → p' ≠ ref := by
      rintro l' p' hl' rfl
      rw [← H.labels_eq hl', hl] at hl'
      exact nomatch hl'
    have H₁ := H.insert (e := entry.exemplar) (m := (ce.heap ref).newest) hl le_rfl href hunused
    obtain ⟨ce', hwrite, H', hlen, hfresh, hheap⟩ := H₁.write (Finmap.lookup_insert _) (by simpa)
    refine ⟨ce', ?_, H', hlen, hfresh, fun i => ?_⟩
    · simp only [migrate, hl]
      exact hwrite
    rw [hheap]
    by_cases hi : i = ref
    · subst hi
      simp
    · simp [hi]
  | some p =>
    obtain ⟨ce₁, hset, H₁, hlen₁, hindex, hheap₁, hfresh₁⟩ := H.setNext hl (by omega)
    obtain ⟨ce', hwrite, H', hlen, hfresh, hheap⟩ := H₁.write (by rwa [hindex]) (by omega)
    refine ⟨ce', ?_, H', by omega, by omega, fun i => by rw [hheap, hheap₁]⟩
    simp only [migrate, hl, hset, bind_eq_bind, bind_some]
    exact hwrite

/-- The loop writes the exemplars of the slots that are used one after the other. -/
lemma Linked.migrateAll {entries : List CircularBufferEntry}
    {xs : List (Option (Labels × Exemplar))} {labels : ℕ → Labels}
    (H : Linked ce h [] 0) (hrefs : Forall₂ (Refers labels ce.fresh) entries xs)
    (hlabels : ∀ i, (ce.heap i).seriesLabels = labels i)
    (hroom : h.length + xs.reduceOption.length ≤ ce.exemplars.length) (migrated : ℕ) :
    ∃ ce', entries.foldlM migrateTurn (ce, migrated) =
        some (ce', migrated + xs.reduceOption.length) ∧
      Linked ce' (h ++ xs.reduceOption) [] 0 ∧ ce'.exemplars.length = ce.exemplars.length := by
  induction entries generalizing ce h migrated xs with
  | nil =>
    cases hrefs
    exact ⟨ce, rfl, by rwa [reduceOption_nil, append_nil], rfl⟩
  | cons entry entries ih =>
    obtain _ | ⟨hentry, hrest⟩ := hrefs
    rename_i x xs
    cases x with
    | none =>
      have hturn : migrateTurn (ce, migrated) entry = some (ce, migrated) := by
        rw [migrateTurn, show entry.ref = none from hentry]
      rw [reduceOption_cons_of_none] at hroom ⊢
      rw [foldlM_cons, hturn]
      exact ih H hrest hlabels hroom migrated
    | some x =>
      obtain ⟨ref, href, hlt, hx, hex⟩ := hentry
      rw [reduceOption_cons_of_some, length_cons] at hroom ⊢
      obtain ⟨ce₁, hmigrate, H₁, hlen, hfresh, hheap⟩ :=
        H.migrate (by omega) hlt ((hlabels ref).trans hx) hex
      have hturn : migrateTurn (ce, migrated) entry = some (ce₁, migrated + 1) := by
        simp only [migrateTurn, href, hmigrate, bind_eq_bind, bind_some]
        rfl
      obtain ⟨ce', hfold, H', hlen'⟩ := ih H₁ (by rwa [hfresh])
        (fun i => (hheap i).trans (hlabels i))
          (by rw [length_append, length_singleton]; omega) (migrated + 1)
      refine ⟨ce', ?_, ?_, hlen'.trans hlen⟩
      · rw [foldlM_cons, hturn, add_comm xs.reduceOption.length 1, ← Nat.add_assoc]
        exact hfold
      · rwa [append_assoc, singleton_append] at H'

lemma foldlM_eq {σ : Type} {f : σ → α → Option σ} {read : ℕ → Option α} {get : ℕ → α}
    {is : List ℕ} (hread : ∀ i ∈ is, read i = some (get i)) (s : σ) :
    is.foldlM (fun s i => read i >>= f s) s = (is.map get).foldlM f s := by
  induction is generalizing s with
  | nil => rfl
  | cons i is ih =>
    rw [map_cons, foldlM_cons, foldlM_cons, hread i mem_cons_self]
    exact bind_congr fun s' => ih (fun j hj => hread j (mem_cons_of_mem i hj)) s'

variable (h)

/-- What is in the slot that comes `i` slots after `count` slots before the next one. -/
def visited (count i : ℕ) : Option (Labels × Exemplar) :=
  if h.length + i < count then none else h[h.length + i - count]?

/-- The last `m` of the slots that are visited have the last exemplars. -/
lemma reduceOption_visited {count m : ℕ} (hm : m ≤ count) :
    ((range' (count - m) m).map (visited h count)).reduceOption = h.drop (h.length - m) := by
  induction m with
  | zero => simp [reduceOption]
  | succ m ih =>
    have hrange : range' (count - (m + 1)) (m + 1) = (count - (m + 1)) :: range' (count - m) m := by
      rw [range'_succ]
      congr 2
      omega
    rw [hrange, map_cons]
    by_cases hlt : h.length < m + 1
    · -- So many have not been written yet.
      rw [visited, if_pos (by omega), reduceOption_cons_of_none, ih (by omega)]
      congr 1
      omega
    have hidx : h.length + (count - (m + 1)) - count = h.length - (m + 1) := by omega
    have hbound : h.length - (m + 1) < h.length := by omega
    rw [visited, if_neg (by omega), hidx, getElem?_eq_getElem hbound,
      reduceOption_cons_of_some, ih (by omega), drop_eq_getElem_cons hbound]
    congr 2
    omega

variable {h}

/-- The slots that are visited are those in the right order. -/
lemma Holds.refers_visited (H : ce.Holds h) {count i : ℕ} (hcount : count ≤ ce.exemplars.length)
    (hi : i < count) :
    ∃ entry, ce.exemplars[((ce.nextIndex + ce.exemplars.length - count) % ce.exemplars.length + i) %
        ce.exemplars.length]? = some entry ∧
      Refers (fun r => (ce.heap r).seriesLabels) ce.fresh entry (visited h count i) := by
  have hslot : ((ce.nextIndex + ce.exemplars.length - count) % ce.exemplars.length + i) %
      ce.exemplars.length = (h.length + i + (ce.exemplars.length - count)) %
        ce.exemplars.length := by
    rw [Nat.mod_add_mod, Linked.nextIndex_eq H, Nat.add_sub_assoc hcount, Nat.add_assoc,
      Nat.mod_add_mod, Nat.add_assoc, add_comm i]
  rw [hslot]
  by_cases hlt : h.length + i < count
  · rw [visited, if_pos hlt, mod_eq_of_lt (by omega)]
    exact Linked.free H (by omega) (by omega)
  obtain ⟨v, hv⟩ : ∃ v, h.length + i = v + count := ⟨h.length + i - count, by omega⟩
  have hvlt : v < h.length := by omega
  obtain ⟨p, hp, hentry⟩ := Linked.slot H (show h.length - ce.exemplars.length ≤ v by omega)
    (getElem?_eq_getElem hvlt)
  rw [visited, if_neg hlt, hv, Nat.add_assoc, Nat.add_sub_cancel' hcount, Nat.add_mod_right, hentry,
    Nat.add_sub_cancel, getElem?_eq_getElem hvlt]
  exact ⟨_, rfl, p, rfl, Linked.addr_lt H hp, Linked.labels_eq H hp, rfl⟩

/-- A new buffer is empty. -/
lemma holds_replicate (ce : CircularExemplarStorage) (n : ℕ) : Holds { ce with
      exemplars := replicate n .zero
      index := ∅
      nextIndex := 0 } [] where
  nextIndex_eq := rfl
  start_le := sub_le _ _
  slot := nofun
  free hi hlt := by
    rw [length_replicate] at hlt
    exact ⟨_, getElem?_replicate_of_lt hlt, rfl⟩
  addr_lt hl := nomatch (Finmap.lookup_empty _).symm.trans hl
  labels_eq hl := nomatch (Finmap.lookup_empty _).symm.trans hl
  oldest_eq hl := nomatch (Finmap.lookup_empty _).symm.trans hl
  newest_eq hl := nomatch (Finmap.lookup_empty _).symm.trans hl

/-- **Resize.** The newest exemplars are kept. -/
lemma Holds.resize (H : ce.Holds h) (l : ℤ) (hne : l.toNat ≠ ce.exemplars.length) :
    ∃ ce', ce.resize l = some
        (ce', (h.drop (h.length - min l.toNat ce.exemplars.length)).length) ∧
      ce'.Holds (h.drop (h.length - min l.toNat ce.exemplars.length)) ∧
      ce'.exemplars.length = l.toNat := by
  set count := min l.toNat ce.exemplars.length with hcount
  have hnew := holds_replicate ce l.toNat
  unfold CircularExemplarStorage.resize
  simp only [if_neg hne]
  by_cases hpos : 0 < l.toNat ∧ 0 < ce.exemplars.length
  · rw [if_pos hpos]
    have H₀ := hnew
    rw [Holds, length_nil, Nat.zero_sub] at H₀
    have hlast := reduceOption_visited h (le_refl count)
    rw [Nat.sub_self, ← range_eq_range'] at hlast
    choose! entry hread hrefers using fun i (hi : i ∈ range count) =>
      H.refers_visited (min_le_right _ _) (mem_range.1 hi)
    have hforall : List.Forall₂ (Refers (fun r => (ce.heap r).seriesLabels) ce.fresh)
        ((range count).map entry) ((range count).map (visited h count)) := by
      rw [forall₂_map_left_iff, forall₂_map_right_iff, forall₂_same]
      exact hrefers
    have hlen : (h.drop (h.length - count)).length ≤ l.toNat := by
      rw [length_drop]
      omega
    obtain ⟨ce', hfold, H', hlen'⟩ := Linked.migrateAll H₀ hforall (fun i => rfl)
      (by rw [hlast, length_nil, zero_add, length_replicate]; exact hlen) 0
    rw [hlast] at hfold H'
    rw [length_replicate] at hlen'
    refine ⟨ce', ?_, ?_, hlen'⟩
    · rw [zero_add] at hfold
      rw [← hfold, ← foldlM_eq hread]
    · rw [Holds, hlen', Nat.sub_eq_zero_of_le hlen]
      exact H'
  · rw [if_neg hpos]
    have hnil : h.drop (h.length - count) = [] := drop_eq_nil_of_le (by omega)
    rw [hnil]
    exact ⟨_, rfl, hnew, length_replicate⟩

end Reads

end CircularExemplarStorage

/-! ### Timestamps of a series -/

/-- An exemplar that is accepted is not older than the newest of its series. -/
lemma le_of_validateAgainst {R : ExemplarRuntime} {newest e : Exemplar}
    (h : validateAgainst R newest e = .ok ()) : newest.ts ≤ e.ts := by
  unfold validateAgainst at h
  cases hlabels : validateLabels 0 e.labels with
  | error err =>
    rw [hlabels] at h
    exact nomatch h
  | ok _ =>
    rw [hlabels] at h
    by_contra hlt
    have hts : e.ts < newest.ts := by omega
    cases hdup : newest.equals e <;> simp [hdup, hts] at h <;> exact nomatch h

namespace Fifo

variable {R : ExemplarRuntime} {q : Fifo} {l : Labels} {e : Exemplar}

/-- The exemplars of each series are stored in the order of their timestamps. -/
def Sorted (q : Fifo) : Prop :=
  ∀ l, (q.ofSeries l).Pairwise (·.ts ≤ ·.ts)

lemma length_stored_le (q : Fifo) : q.stored.length ≤ q.capacity := by
  rw [stored, length_drop]
  omega

lemma stored_resize (q : Fifo) (n : ℕ) :
    (q.resize n).stored = q.stored.drop (q.stored.length - n) := by
  have hlen : (q.stored.drop (q.stored.length - n)).length ≤ n := by
    rw [length_drop]
    omega
  rw [stored, resize]
  rw [Nat.sub_eq_zero_of_le hlen, drop_zero]

lemma ofSeries_sublist {q q' : Fifo} (h : q'.stored.Sublist q.stored) (l : Labels) :
    (q'.ofSeries l).Sublist (q.ofSeries l) :=
  (h.filter _).map _

lemma Sorted.resize (h : q.Sorted) (n : ℕ) : (q.resize n).Sorted := by
  intro l
  refine (h l).sublist (ofSeries_sublist ?_ l)
  rw [stored_resize]
  exact drop_sublist _ _

lemma Sorted.add (h : q.Sorted) (l : Labels) (e : Exemplar) : (q.add R l e).Sorted := by
  unfold Fifo.add
  cases hval : q.validate R l e with
  | error err => exact h
  | ok _ =>
    have hcap : q.capacity ≠ 0 := by
      intro hzero
      rw [validate, if_pos hzero] at hval
      exact nomatch hval
    rw [validate, if_neg hcap] at hval
    intro l'
    -- What is stored then is the exemplar after some of those that were stored.
    obtain ⟨kept, hkept, hsub⟩ : ∃ kept,
        stored { q with accepted := q.accepted ++ [(l, e)] } = kept ++ [(l, e)] ∧
          kept.Sublist q.stored := by
      refine ⟨q.stored.drop (q.stored.length + 1 - q.capacity), ?_, drop_sublist _ _⟩
      rw [stored]
      rw [length_append, length_singleton, drop_concat_eq, drop_append_of_le_length]
      · rfl
      · change q.stored.length + 1 - q.capacity ≤ q.stored.length
        omega
    have hsorted : ((kept.filter fun x => x.1 = l').map Prod.snd).Pairwise (·.ts ≤ ·.ts) :=
      (h l').sublist ((hsub.filter _).map _)
    rw [ofSeries, hkept, filter_append, map_append, pairwise_append]
    refine ⟨hsorted, ?_, ?_⟩
    · by_cases hl : l = l' <;> simp [hl]
    intro e₁ he₁ e₂ he₂
    simp only [List.mem_map, mem_filter, mem_singleton, decide_eq_true_eq] at he₂
    obtain ⟨_, ⟨rfl, rfl⟩, rfl⟩ := he₂
    -- It is not before the newest of the series, and no other is after that one.
    have hmem : e₁ ∈ q.ofSeries l := ((hsub.filter _).map _).subset he₁
    cases hlast : (q.ofSeries l).getLast? with
    | none =>
      rw [getLast?_eq_none_iff.1 hlast] at hmem
      exact absurd hmem not_mem_nil
    | some newest =>
      rw [hlast] at hval
      refine le_trans ?_ (le_of_validateAgainst hval)
      obtain ⟨init, hinit⟩ := getLast?_eq_some_iff.1 hlast
      have hpair := h l
      rw [hinit] at hmem hpair
      obtain hmem | hmem := mem_append.1 hmem
      · exact (pairwise_append.1 hpair).2.2 e₁ hmem _ (mem_singleton_self _)
      · rw [mem_singleton.1 hmem]

end Fifo

/-! ### Runs -/

inductive ExemplarOp
  | add (l : Labels) (e : Exemplar)
  | resize (n : ℤ)

variable (R : ExemplarRuntime)

def CircularExemplarStorage.step (ce : CircularExemplarStorage) :
    ExemplarOp → Option CircularExemplarStorage
  | .add l e => (ce.addExemplar R l e).map Prod.fst
  | .resize n => (ce.resize n).map Prod.fst

def Fifo.step (q : Fifo) : ExemplarOp → Fifo
  | .add l e => q.add R l e
  | .resize n => q.resize n.toNat

/-- What can be told of the storage from outside is that of the queue. -/
structure Refines (R : ExemplarRuntime) (ce : CircularExemplarStorage) (q : Fifo) : Prop where
  length_eq : ce.exemplars.length = q.capacity
  iterateExemplars : ce.iterateExemplars = some q.stored
  mem_index : ∀ l, l ∈ ce.index ↔ ∃ x ∈ q.stored, x.1 = l
  chain : ∀ l p, ce.index.lookup l = some p → (ce.heap p).seriesLabels = l ∧
    ce.Chain (ce.heap p).oldest (q.ofSeries l) (ce.heap p).newest
  sorted : q.Sorted
  select : ∀ start stop matchers, ∃ res, ce.select R start stop matchers = some res ∧
    res.Pairwise (fun a b => CompareLe a.seriesLabels b.seriesLabels) ∧
    (res.map QueryResult.seriesLabels).Nodup ∧
    ∀ l es, ⟨l, es⟩ ∈ res ↔ matchesSomeMatcherSet l matchers ∧ es ≠ [] ∧
      es = (q.ofSeries l).filter fun e => start ≤ e.ts ∧ e.ts ≤ stop
  addExemplar : ∀ l e, ∃ ce', ce.addExemplar R l e = some (ce', q.addResult R l e) ∧
    ∀ err, q.addResult R l e = .error err → ce' = ce
  resize : ∀ n, ∃ ce', ce.resize n = some (ce', if n.toNat = q.capacity then 0
    else (q.resize n.toNat).stored.length)

/-- The storage holds what the queue has stored. -/
structure Represents (ce : CircularExemplarStorage) (q : Fifo) : Prop where
  length_eq : ce.exemplars.length = q.capacity
  holds : ∃ h, ce.Holds h ∧ h.drop (h.length - ce.exemplars.length) = q.stored
  sorted : q.Sorted

namespace Represents

open CircularExemplarStorage

variable {R : ExemplarRuntime} {ce : CircularExemplarStorage} {q : Fifo}

section

variable (H : Represents ce q)
include H

lemma addExemplar (l : Labels) (e : Exemplar) :
    ∃ ce', ce.addExemplar R l e = some (ce', q.addResult R l e) ∧ Represents ce' (q.add R l e) ∧
      ∀ err, q.addResult R l e = .error err → ce' = ce := by
  obtain ⟨hlen, ⟨h, hholds, hstored⟩, hsorted⟩ := H
  unfold CircularExemplarStorage.addExemplar
  by_cases hzero : ce.exemplars.length = 0
  · have hval : q.validate R l e = .error .exemplarsDisabled := if_pos (hlen ▸ hzero)
    refine ⟨ce, ?_, ?_, fun _ _ => rfl⟩
    · rw [if_pos hzero, Fifo.addResult, hval]
      rfl
    · rw [Fifo.add, hval]
      exact ⟨hlen, ⟨h, hholds, hstored⟩, hsorted⟩
  have hval : ce.validateExemplar R (ce.index.lookup l) e = some (q.validate R l e) := by
    rw [hholds.validateExemplar hzero, ofSeries, hstored, Fifo.validate, if_neg (hlen ▸ hzero)]
    rfl
  have hsame := hsorted.add (R := R) l e
  rw [if_neg hzero, hval]
  simp only [bind_eq_bind, bind_some]
  unfold Fifo.addResult Fifo.add at *
  cases hv : q.validate R l e with
  | error err =>
    refine ⟨ce, ?_, ⟨hlen, ⟨h, hholds, hstored⟩, hsorted⟩, fun _ _ => rfl⟩
    cases err <;> rfl
  | ok _ =>
    rw [hv] at hsame
    obtain ⟨ce₁, p, ce₂, ce', hlink, hdrop, hwrite, hholds', hlen'⟩ :=
      hholds.push (pos_of_ne_zero hzero) l e
    refine ⟨ce', ?_, ⟨hlen'.trans hlen, ⟨_, hholds', ?_⟩, hsame⟩, nofun⟩
    · simp only [hlink, hdrop, hwrite, bind_some]
      rfl
    rw [length_append, length_singleton, hlen', drop_concat_eq, hstored, hlen]
    exact (drop_concat_eq q.accepted (l, e) q.capacity).symm.trans
      (by rw [Fifo.stored, length_append, length_singleton])

lemma resize (n : ℤ) :
    ∃ ce', ce.resize n = some (ce', if n.toNat = q.capacity then 0
        else (q.resize n.toNat).stored.length) ∧
      Represents ce' (q.resize n.toNat) := by
  obtain ⟨hlen, ⟨h, hholds, hstored⟩, hsorted⟩ := H
  by_cases heq : n.toNat = q.capacity
  · refine ⟨ce, ?_, hlen.trans heq.symm, ⟨h, hholds, ?_⟩, hsorted.resize _⟩
    · rw [if_pos heq, CircularExemplarStorage.resize, if_pos (heq.trans hlen.symm)]
      rfl
    · have hle := q.length_stored_le
      rw [hstored, Fifo.stored_resize, Nat.sub_eq_zero_of_le (by omega), drop_zero]
  obtain ⟨ce', hresize, hholds', hlen'⟩ := hholds.resize n (hlen.symm ▸ heq)
  -- The last of the stored exemplars are the last of those that were written.
  have hkept : h.drop (h.length - min n.toNat ce.exemplars.length) = (q.resize n.toNat).stored := by
    rw [Fifo.stored_resize, ← hstored, drop_drop, length_drop]
    congr 1
    omega
  rw [hkept] at hresize hholds'
  refine ⟨ce', by rw [if_neg heq, hresize], hlen', ⟨_, hholds', ?_⟩, hsorted.resize _⟩
  have hle := (q.resize n.toNat).length_stored_le
  rw [Nat.sub_eq_zero_of_le (by rwa [hlen']), drop_zero]

lemma step (op : ExemplarOp) : ∃ ce', ce.step R op = some ce' ∧ Represents ce' (q.step R op) := by
  cases op with
  | add l e =>
    obtain ⟨ce', hadd, H', -⟩ := H.addExemplar l e
    exact ⟨ce', by rw [CircularExemplarStorage.step, hadd]; rfl, H'⟩
  | resize n =>
    obtain ⟨ce', hresize, H'⟩ := H.resize n
    exact ⟨ce', by rw [CircularExemplarStorage.step, hresize]; rfl, H'⟩

lemma run (ops : List ExemplarOp) :
    ∃ ce', Transition.run (CircularExemplarStorage.step R) ce ops = some ce' ∧
      Represents ce' (ops.foldl (Fifo.step R) q) := by
  induction ops generalizing ce q with
  | nil => exact ⟨ce, rfl, H⟩
  | cons op ops ih =>
    obtain ⟨ce₁, hstep, H₁⟩ := H.step op
    obtain ⟨ce', hrun, H'⟩ := ih H₁
    exact ⟨ce', Transition.run_cons_eq_some.2 ⟨ce₁, hstep, hrun⟩, H'⟩

lemma refines : Refines R ce q := by
  have hadd := H.addExemplar (R := R)
  have hresize := H.resize
  obtain ⟨hlen, ⟨h, hholds, hstored⟩, hsorted⟩ := H
  have hseries : ∀ l, ofSeries h (h.length - ce.exemplars.length) l = q.ofSeries l := by
    intro l
    rw [ofSeries, hstored]
    rfl
  refine
    { length_eq := hlen
      iterateExemplars := by rw [hholds.iterateExemplars, hstored]
      mem_index := fun l => ?_
      chain := fun l p hl => ⟨Linked.labels_eq hholds hl, hseries l ▸ hholds.chain hl⟩
      sorted := hsorted
      select := fun start stop matchers => ?_
      addExemplar := fun l e => ?_
      resize := fun n => ?_ }
  · have hnone := hholds.lookup_eq_none (l := l)
    rw [hseries, Finmap.lookup_eq_none, Fifo.ofSeries, map_eq_nil_iff, filter_eq_nil_iff] at hnone
    rw [← not_iff_not, hnone]
    simp only [decide_eq_true_eq, not_exists, not_and]
  · have hselect := hholds.select (R := R) start stop matchers fun l => hseries l ▸ hsorted l
    simpa only [hseries, inRange] using hselect
  · obtain ⟨ce', hce', -, herr⟩ := hadd l e
    exact ⟨ce', hce', herr⟩
  · obtain ⟨ce', hce', -⟩ := hresize n
    exact ⟨ce', hce'⟩

end

end Represents

/-- **The exemplar storage is a bounded queue.** After any calls of `AddExemplar` and `Resize` on a
new storage, it has the exemplars that were accepted last, up to its capacity. -/
theorem circularExemplarStorage_refines_fifo (R : ExemplarRuntime) (length : ℤ)
    (ops : List ExemplarOp) :
    ∃ ce, Transition.run (CircularExemplarStorage.step R) (newCircularExemplarStorage length) ops =
        some ce ∧ Refines R ce (ops.foldl (Fifo.step R) ⟨length.toNat, []⟩) := by
  have hinit : Represents (newCircularExemplarStorage length) ⟨length.toNat, []⟩ :=
    { length_eq := length_replicate
      holds := ⟨[], holds_replicate (newCircularExemplarStorage length) _, by
        simp [Fifo.stored]⟩
      sorted := fun l => by simp [Fifo.ofSeries, Fifo.stored] }
  obtain ⟨ce, hrun, H⟩ := hinit.run ops
  exact ⟨ce, hrun, H.refines⟩

/-- Maps are traversed in some order, and slices are sorted by insertion. -/
noncomputable def exemplarRuntime : ExemplarRuntime where
  hash ls := BitVec.ofNat 64 ls.length
  traverse m := m.entries.toList
  coe_traverse m := Multiset.coe_toList _
  sort rs := rs.insertionSort fun a b => CompareLe a.seriesLabels b.seriesLabels
  sortsBy := by
    have htotal : Std.Total fun a b : QueryResult => CompareLe a.seriesLabels b.seriesLabels :=
      ⟨fun a b => List.le_total (fields a.seriesLabels) (fields b.seriesLabels)⟩
    have htrans : IsTrans QueryResult fun a b => CompareLe a.seriesLabels b.seriesLabels :=
      ⟨fun a b c hab hbc => show fields a.seriesLabels ≤ fields c.seriesLabels from
        List.le_trans hab hbc⟩
    exact sortsBy_insertionSort _

/-- A series with one label. -/
def seriesOf (c : BitVec 8) : Labels :=
  [⟨[97#8], [c]⟩]

/-- An exemplar that came with a timestamp. -/
def exemplarAt (ts : ℤ) : Exemplar :=
  ⟨[], 0#64, ts, true⟩

/-- With room for two, the third exemplar overwrites the first one, and the fourth one is out of
order. With room for three, the last one overwrites the one of series 2. -/
def wrappedOps : List ExemplarOp :=
  [.add (seriesOf 1#8) (exemplarAt 10), .add (seriesOf 2#8) (exemplarAt 20),
    .add (seriesOf 1#8) (exemplarAt 30), .add (seriesOf 1#8) (exemplarAt 25), .resize 3,
    .add (seriesOf 1#8) (exemplarAt 40), .add (seriesOf 3#8) (exemplarAt 50)]

/-- Series 2 is gone in the end, and there is the newest exemplar of series 1 in the time range. -/
theorem circularExemplarStorage_refines_fifo_wrapped : ∃ ce,
    Transition.run (CircularExemplarStorage.step exemplarRuntime) (newCircularExemplarStorage 2)
        wrappedOps = some ce ∧
      ce.iterateExemplars = some [(seriesOf 1#8, exemplarAt 30), (seriesOf 1#8, exemplarAt 40),
        (seriesOf 3#8, exemplarAt 50)] ∧
      ∃ res, ce.select exemplarRuntime 35 60 [[]] = some res ∧
        ⟨seriesOf 1#8, [exemplarAt 40]⟩ ∈ res ∧ ∀ es, ⟨seriesOf 2#8, es⟩ ∉ res := by
  obtain ⟨ce, hrun, h⟩ := circularExemplarStorage_refines_fifo exemplarRuntime 2 wrappedOps
  have hstored : (wrappedOps.foldl (Fifo.step exemplarRuntime) ⟨(2 : ℤ).toNat, []⟩).stored =
      [(seriesOf 1#8, exemplarAt 30), (seriesOf 1#8, exemplarAt 40),
        (seriesOf 3#8, exemplarAt 50)] := by
    decide +kernel
  obtain ⟨res, hres, -, -, hmem⟩ := h.select 35 60 [[]]
  simp only [Fifo.ofSeries, hstored] at hmem
  refine ⟨ce, hrun, h.iterateExemplars.trans (congrArg some hstored), res,
    hres, ?_, fun es hes => ?_⟩
  · exact (hmem _ _).2 (by decide)
  · obtain ⟨-, hne, rfl⟩ := (hmem _ _).1 hes
    exact hne (by decide)

end Prometheus.Exemplars
