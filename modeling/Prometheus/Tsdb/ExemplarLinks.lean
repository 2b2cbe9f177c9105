import Prometheus.Lib.Occurrences
import Prometheus.Lib.Ring
import Prometheus.Tsdb.Exemplars

/-!
# Slots and links of the exemplar storage

The list `h` of all exemplars that were written to the buffer places them: the exemplar at position
`v` of the list is in slot `v` modulo the number of slots, while the last ones are stored
(`Linked`). The links of a series lead through the positions of its exemplars (`Occurrences`).

An exemplar is added in three steps, and between them one exemplar is pending: the links and the
oldest exemplars take account of it, but it is not in its slot and not the newest of its series.
First it is linked to (`Linked.link`). Then the exemplar in its slot is dropped, of whose links one
may already lead to the pending one (`Linked.dropPrev`). At last it is written (`Linked.write`).
-/

namespace Prometheus.Exemplars

open Stringlabels Occurrences List Option Prod Finmap Nat

namespace CircularExemplarStorage

/-- The exemplars `h` have been written, and those from position `a` on are in their slots. The
links lead through these and the `pending` exemplars. -/
structure Linked (ce : CircularExemplarStorage) (h pending : List (Labels × Exemplar)) (a : ℕ) :
    Prop where
  nextIndex_eq : ce.nextIndex = h.length % ce.exemplars.length
  start_le : a ≤ h.length
  slot : ∀ {v x}, a ≤ v → h[v]? = some x → ∃ p, ce.index.lookup x.1 = some p ∧
    ce.exemplars[v % ce.exemplars.length]? = some
      ⟨x.2, (first x.1 ((h ++ pending).map Prod.fst) (v + 1)).map (· % ce.exemplars.length), some p⟩
  free : ∀ {i}, h.length ≤ i → i < ce.exemplars.length →
    ∃ entry, ce.exemplars[i]? = some entry ∧ entry.ref = none
  addr_lt : ∀ {l p}, ce.index.lookup l = some p → p < ce.fresh
  labels_eq : ∀ {l p}, ce.index.lookup l = some p → (ce.heap p).seriesLabels = l
  oldest_eq : ∀ {l p}, ce.index.lookup l = some p →
    ∃ v, first l ((h ++ pending).map Prod.fst) a = some v ∧
      (ce.heap p).oldest = v % ce.exemplars.length
  newest_eq : ∀ {l p}, ce.index.lookup l = some p →
    ∀ {w}, last l (h.map Prod.fst) a = some w → (ce.heap p).newest = w % ce.exemplars.length

namespace Linked

variable {ce : CircularExemplarStorage} {h pending : List (Labels × Exemplar)} {a v w p : ℕ}
  {l : Labels} {e : Exemplar} {x : Labels × Exemplar}

/-- An entry of which only other fields are assigned. -/
lemma field_update {α : Type*} (f : IndexEntry → α) {heap : ℕ → IndexEntry} {entry : IndexEntry}
    (i : ℕ) (h : f entry = f (heap p) := by rfl) :
    f (Function.update heap p entry i) = f (heap i) := by
  rw [Function.update_apply]
  split_ifs with hi
  · rw [h, hi]
  · rfl

lemma mem_positions_of (hv : a ≤ v) (hx : h[v]? = some x) : v ∈ positions x.1 (h.map fst) a :=
  mem_positions.2 ⟨hv, by rw [getElem?_map, hx]; rfl⟩

/-- A series has an entry if one of its exemplars is stored. -/
lemma positions_eq_nil (H : Linked ce h pending a) (hl : ce.index.lookup l = none) :
    positions l (h.map fst) a = [] := by
  rw [eq_nil_iff_forall_not_mem]
  intro v hv
  obtain ⟨hav, hv⟩ := mem_positions.1 hv
  rw [getElem?_map, map_eq_some_iff] at hv
  obtain ⟨x, hx, rfl⟩ := hv
  obtain ⟨p, hp, -⟩ := H.slot hav hx
  exact nomatch hl.symm.trans hp

/-- Entries of different series are at different addresses. -/
lemma addr_ne (H : Linked ce h pending a) {l' : Labels} {p' : ℕ} (hl : ce.index.lookup l = some p)
    (hl' : ce.index.lookup l' = some p') (hne : l ≠ l') : p ≠ p' := by
  rintro rfl
  exact hne ((H.labels_eq hl).symm.trans (H.labels_eq hl'))

variable (H : Linked ce h [] a)
include H

/-- The newest exemplar of a series, if it has an entry. -/
lemma exists_last (hl : ce.index.lookup l = some p) : ∃ w, last l (h.map fst) a = some w := by
  obtain ⟨v, hv, -⟩ := H.oldest_eq hl
  rw [append_nil] at hv
  cases hlast : last l (h.map fst) a with
  | some w => exact ⟨w, rfl⟩
  | none =>
    rw [last, getLast?_eq_none_iff, first_eq_some hv] at hlast
    cases hlast

/-! ### Adding an exemplar -/

/-- A series without an entry gets one, at an address that no other series uses. -/
lemma insert (hl : ce.index.lookup l = none) {p m fresh : ℕ}
    (hfresh : ce.fresh ≤ fresh) (hp : p < fresh)
    (hunused : ∀ {l' p'}, ce.index.lookup l' = some p' → p' ≠ p) : Linked { ce with
      index := ce.index.insert l p
      heap := Function.update ce.heap p ⟨ce.nextIndex, m, l⟩
      fresh := fresh } h [(l, e)] a := by
  have hnil := H.positions_eq_nil hl
  -- An entry is the new one, or one of another series.
  have hcases : ∀ {l' p'}, (ce.index.insert l p).lookup l' = some p' →
      (l' = l ∧ p' = p) ∨ (l ≠ l' ∧ p' ≠ p ∧ ce.index.lookup l' = some p') := by
    intro l' p' hl'
    by_cases heq : l' = l
    · rw [heq, lookup_insert] at hl'
      exact .inl ⟨heq, (some.inj hl').symm⟩
    · rw [lookup_insert_of_ne _ heq] at hl'
      exact .inr ⟨Ne.symm heq, hunused hl', hl'⟩
  have hfirst : ∀ {l'} (b : ℕ), b ≤ h.length → l ≠ l' →
      first l' ((h ++ [(l, e)]).map fst) b = first l' (h.map fst) b := by
    intro l' b hb hne
    rw [map_append, map_singleton, first_concat (by rwa [length_map]), if_neg hne, or_none]
  refine ⟨H.nextIndex_eq, H.start_le, ?slot, H.free, ?addr_lt, ?labels_eq, ?oldest_eq, ?newest_eq⟩
  case slot =>
    intro v x hv hx
    have hne : l ≠ x.1 := by
      rintro rfl
      exact not_mem_nil (hnil ▸ mem_positions_of hv hx)
    obtain ⟨p', hp', hslot⟩ := H.slot hv hx
    refine ⟨p', ?_, ?_⟩
    · rwa [lookup_insert_of_ne _ hne.symm]
    · have hlt := (List.getElem?_eq_some_iff.1 hx).1
      rwa [hfirst (v + 1) hlt hne, ← append_nil h]
  case addr_lt =>
    intro l' p' hl'
    obtain ⟨-, rfl⟩ | ⟨-, -, hl'⟩ := hcases hl'
    · exact hp
    · exact (H.addr_lt hl').trans_le hfresh
  case labels_eq =>
    intro l' p' hl'
    obtain ⟨rfl, rfl⟩ | ⟨-, hne, hl'⟩ := hcases hl'
    · simp
    · simpa [hne] using H.labels_eq hl'
  case oldest_eq =>
    intro l' p' hl'
    obtain ⟨rfl, rfl⟩ | ⟨hne, hne', hl'⟩ := hcases hl'
    · refine ⟨h.length, ?_, ?_⟩
      · rw [map_append, map_singleton, first_concat (by rw [length_map]; exact H.start_le),
          first_eq_none.2 hnil, if_pos rfl, length_map]
        rfl
      · simpa using H.nextIndex_eq
    · obtain ⟨v, hv, hold⟩ := H.oldest_eq hl'
      rw [append_nil] at hv
      exact ⟨v, by rwa [hfirst a H.start_le hne], by simpa [hne'] using hold⟩
  case newest_eq =>
    intro l' p' hl' w hw
    obtain ⟨rfl, rfl⟩ | ⟨hne, hne', hl'⟩ := hcases hl'
    · rw [last, hnil] at hw
      cases hw
    · simpa [hne'] using H.newest_eq hl' hw

/-- The newest exemplar of a series that has an entry is linked to the slot that is to be written.
-/
lemma setNext (hl : ce.index.lookup l = some p) (hwin : h.length ≤ a + ce.exemplars.length) :
    ∃ ce', ce.setNext (ce.heap p).newest ce.nextIndex = some ce' ∧ Linked ce' h [(l, e)] a ∧
      ce'.exemplars.length = ce.exemplars.length ∧ ce'.index = ce.index ∧ ce'.heap = ce.heap ∧
      ce'.fresh = ce.fresh := by
  obtain ⟨w, hw⟩ := H.exists_last hl
  obtain ⟨haw, hkey⟩ := mem_of_last hw
  rw [getElem?_map, map_eq_some_iff] at hkey
  obtain ⟨y, hy, rfl⟩ := hkey
  have hwlt := (List.getElem?_eq_some_iff.1 hy).1
  obtain ⟨p', hp', hslot⟩ := H.slot haw hy
  have hfirst : ∀ {l'} (b : ℕ), b ≤ h.length →
      first l' ((h ++ [(y.1, e)]).map fst) b =
        (first l' (h.map fst) b).or (if y.1 = l' then some h.length else none) := by
    intro l' b hb
    rw [map_append, map_singleton, first_concat (by rwa [length_map]), length_map]
  rw [setNext, H.newest_eq hl hw, hslot]
  refine ⟨_, rfl, ?_, length_set, rfl, rfl, rfl⟩
  have hlen : ∀ entry, (ce.exemplars.set (w % ce.exemplars.length) entry).length =
      ce.exemplars.length := fun _ => length_set
  refine ⟨?_, H.start_le, ?slot, ?free, H.addr_lt, H.labels_eq, ?oldest_eq, ?newest_eq⟩
  · simpa only [hlen] using H.nextIndex_eq
  case slot =>
    intro v x hv hx
    have hvlt := (List.getElem?_eq_some_iff.1 hx).1
    obtain ⟨q, hq, hslot'⟩ := H.slot hv hx
    refine ⟨q, hq, ?_⟩
    rw [hlen, hfirst (v + 1) hvlt]
    rw [append_nil] at hslot'
    have hmem := mem_positions_of hv hx
    by_cases hvw : v = w
    · -- The newest exemplar had no link, and gets one.
      subst hvw
      obtain rfl : x = y := some.inj (hx.symm.trans hy)
      obtain rfl : q = p' := some.inj (hq.symm.trans hp')
      have hbound := (List.getElem?_eq_some_iff.1 hslot).1
      rw [getElem?_set_self hbound, (first_succ_eq_none hw hmem).2 rfl, if_pos rfl,
        none_or, H.nextIndex_eq]
      rfl
    rw [getElem?_set_ne (Ring.mod_ne_mod haw hv (by omega) (by omega) (Ne.symm hvw)), hslot']
    by_cases hxy : y.1 = x.1
    · -- An earlier exemplar of the series has a link already.
      rw [hxy] at hw
      have hsome : first x.1 (h.map fst) (v + 1) ≠ none := fun hnone =>
        hvw ((first_succ_eq_none hw hmem).1 hnone)
      obtain ⟨u, hu⟩ := ne_none_iff_exists'.1 hsome
      rw [hu, some_or]
    · rw [if_neg hxy, or_none]
  case free =>
    intro i hi hlt
    rw [hlen] at hlt
    have hne : w % ce.exemplars.length ≠ i := by
      have := mod_le w ce.exemplars.length
      omega
    simpa only [getElem?_set_ne hne] using H.free hi hlt
  case oldest_eq =>
    intro l' q hl'
    obtain ⟨v, hv, hold⟩ := H.oldest_eq hl'
    rw [append_nil] at hv
    refine ⟨v, ?_, by rwa [hlen]⟩
    rw [hfirst a H.start_le, hv, some_or]
  case newest_eq =>
    intro l' q hl' u hu
    dsimp only
    rw [hlen]
    exact H.newest_eq hl' hu

theorem link (l : Labels) (e : Exemplar) (hwin : h.length ≤ a + ce.exemplars.length) :
    ∃ ce' p, ce.link l = some (ce', p) ∧ Linked ce' h [(l, e)] a ∧ ce'.index.lookup l = some p ∧
      ce'.exemplars.length = ce.exemplars.length := by
  unfold CircularExemplarStorage.link
  cases hl : ce.index.lookup l with
  | none =>
    refine ⟨_, _, rfl, H.insert hl (le_succ _) (lt_succ_self _) ?_, ?_, rfl⟩
    · intro l' p' hl'
      exact (H.addr_lt hl').ne
    · exact lookup_insert _
  | some p =>
    obtain ⟨ce', hset, H', hlen, hindex, -⟩ := H.setNext hl hwin
    refine ⟨ce', p, ?_, H', by rwa [hindex], hlen⟩
    simp only [hset, bind_eq_bind, bind_some]
    rfl

omit H

/-- In a slot that has not been used there is nothing to drop. -/
lemma dropPrev_of_free (H : Linked ce h pending a) (hfree : h.length < ce.exemplars.length) :
    ce.dropPrev = some ce := by
  obtain ⟨entry, hentry, href⟩ := H.free le_rfl hfree
  rw [dropPrev, H.nextIndex_eq, mod_eq_of_lt hfree, hentry]
  simp only [bind_eq_bind, bind_some, href]
  rfl

/-- If all slots are used, then the oldest of all exemplars is dropped. -/
theorem dropPrev (H : Linked ce h [(l, e)] a) (hl : ce.index.lookup l = some p)
    (hpos : 0 < ce.exemplars.length) (hfull : h.length = a + ce.exemplars.length) :
    ∃ ce', ce.dropPrev = some ce' ∧ Linked ce' h [(l, e)] (a + 1) ∧ ce'.index.lookup l = some p ∧
      ce'.exemplars.length = ce.exemplars.length := by
  set keys := (h ++ [(l, e)]).map fst with hkeys
  obtain ⟨x, hx⟩ : ∃ x, h[a]? = some x := ⟨_, getElem?_eq_getElem (by omega)⟩
  obtain ⟨r, hr, hslot⟩ := H.slot le_rfl hx
  have hkey : keys[a]? = some x.1 := by
    rw [hkeys, getElem?_map, getElem?_append_left (by omega), hx]
    rfl
  have hpend : h.length ∈ positions l keys (a + 1) :=
    mem_positions.2 ⟨by omega, by simp [hkeys]⟩
  have hne_of_ne : ∀ {l'}, x.1 ≠ l' → keys[a]? ≠ some l' := by
    intro l' hne heq
    exact hne (some.inj (hkey.symm.trans heq))
  have hlast : ∀ {l' w}, last l' (h.map fst) (a + 1) = some w → last l' (h.map fst) a = some w := by
    intro l' w hw
    rw [← last_succ, hw]
    intro hnil
    rw [last, hnil] at hw
    cases hw
  have hprev : ce.exemplars[ce.nextIndex]? = some
      ⟨x.2, (first x.1 keys (a + 1)).map (· % ce.exemplars.length), some r⟩ := by
    rw [H.nextIndex_eq, hfull, add_mod_right, hslot]
  rw [CircularExemplarStorage.dropPrev, hprev]
  cases hnext : first x.1 keys (a + 1) with
  | none =>
    -- It is the only exemplar of its series, the pending one included.
    have hnil := first_eq_none.1 hnext
    have hcases : ∀ {l' p'}, (ce.index.erase (ce.heap r).seriesLabels).lookup l' = some p' →
        x.1 ≠ l' ∧ ce.index.lookup l' = some p' := by
      intro l' p' hl'
      rw [H.labels_eq hr] at hl'
      by_cases heq : l' = x.1
      · rw [heq, lookup_erase] at hl'
        cases hl'
      · rw [lookup_erase_ne heq] at hl'
        exact ⟨Ne.symm heq, hl'⟩
    refine ⟨_, rfl, ?_, ?_, rfl⟩
    · refine ⟨H.nextIndex_eq, by omega, ?slot, H.free, ?_, ?_, ?oldest_eq, ?newest_eq⟩
      case slot =>
        intro v y hv hy
        obtain ⟨p', hp', hslot'⟩ := H.slot (by omega) hy
        refine ⟨p', ?_, hslot'⟩
        have hne : y.1 ≠ x.1 := by
          intro heq
          have hy : (h ++ [(l, e)])[v]? = some y := by
            rw [getElem?_append_left (List.getElem?_eq_some_iff.1 hy).1, hy]
          exact not_mem_nil (hnil ▸ heq ▸ mem_positions_of hv hy)
        rwa [H.labels_eq hr, lookup_erase_ne hne]
      · exact fun hl' => H.addr_lt (hcases hl').2
      · exact fun hl' => H.labels_eq (hcases hl').2
      case oldest_eq =>
        intro l' p' hl'
        obtain ⟨v, hv, hold⟩ := H.oldest_eq (hcases hl').2
        exact ⟨v, by rwa [first_succ_of_ne (hne_of_ne (hcases hl').1)], hold⟩
      case newest_eq => exact fun hl' w hw => H.newest_eq (hcases hl').2 (hlast hw)
    · have hne : l ≠ x.1 := by
        rintro rfl
        exact not_mem_nil (hnil ▸ hpend)
      rwa [H.labels_eq hr, lookup_erase_ne hne]
  | some u =>
    -- The next exemplar of the series becomes its oldest.
    refine ⟨_, rfl, ⟨H.nextIndex_eq, by omega, fun hv hy =>
      H.slot (by omega) hy, H.free, H.addr_lt, ?_,
      ?oldest_eq, ?_⟩, hl, rfl⟩
    · exact fun hl' => (field_update IndexEntry.seriesLabels _).trans (H.labels_eq hl')
    case oldest_eq =>
      intro l' p' hl'
      by_cases heq : x.1 = l'
      · subst heq
        obtain rfl : p' = r := some.inj (hl'.symm.trans hr)
        exact ⟨u, hnext, by simp⟩
      obtain ⟨v, hv, hold⟩ := H.oldest_eq hl'
      refine ⟨v, by rwa [first_succ_of_ne (hne_of_ne heq)], ?_⟩
      simpa [(H.addr_ne hr hl' heq).symm] using hold
    · exact fun hl' w hw =>
        (field_update IndexEntry.newest _).trans (H.newest_eq hl' (hlast hw))

/-- The pending exemplar is written to a slot that is not in use. -/
theorem write (H : Linked ce h [(l, e)] a) (hl : ce.index.lookup l = some p)
    (hroom : h.length < a + ce.exemplars.length) :
    ∃ ce', ce.write e p = some ce' ∧ Linked ce' (h ++ [(l, e)]) [] a ∧
      ce'.exemplars.length = ce.exemplars.length ∧ ce'.fresh = ce.fresh ∧
      ∀ i, (ce'.heap i).seriesLabels = (ce.heap i).seriesLabels := by
  have hstart := H.start_le
  have hbound : h.length % ce.exemplars.length < ce.exemplars.length := mod_lt _ (by omega)
  rw [CircularExemplarStorage.write, H.nextIndex_eq, if_pos hbound]
  have hlen : ∀ entry, (ce.exemplars.set (h.length % ce.exemplars.length) entry).length =
      ce.exemplars.length := fun _ => length_set
  refine ⟨_, rfl, ?_, hlen _, rfl, ?_⟩
  · refine ⟨?_, ?_, ?slot, ?free, H.addr_lt, ?labels_eq, ?oldest_eq, ?newest_eq⟩
    · rw [hlen, mod_add_mod, length_append, length_singleton]
    · rw [length_append]
      omega
    case slot =>
      intro v x hv hx
      rw [hlen, append_nil]
      obtain hvh | rfl : v < h.length ∨ v = h.length := by
        have := (List.getElem?_eq_some_iff.1 hx).1
        rw [length_append, length_singleton] at this
        omega
      · rw [getElem?_append_left hvh] at hx
        obtain ⟨p', hp', hslot⟩ := H.slot hv hx
        refine ⟨p', hp', ?_⟩
        rwa [getElem?_set_ne (Ring.mod_ne_mod hstart hv (by omega) (by omega) (by omega))]
      rw [getElem?_concat_length, some.injEq] at hx
      subst hx
      refine ⟨p, hl, ?_⟩
      -- There is nothing after the last exemplar.
      have hnone : first l ((h ++ [(l, e)]).map fst) (h.length + 1) = none := by
        rw [first_eq_none, eq_nil_iff_forall_not_mem]
        intro u hu
        obtain ⟨hle, hu⟩ := mem_positions.1 hu
        have hlt := (List.getElem?_eq_some_iff.1 hu).1
        rw [length_map, length_append, length_singleton] at hlt
        omega
      rw [getElem?_set_self hbound, hnone]
      rfl
    case free =>
      intro i hi hlt
      rw [length_append, length_singleton] at hi
      rw [hlen] at hlt
      have hne : h.length % ce.exemplars.length ≠ i := by
        have := mod_le h.length ce.exemplars.length
        omega
      simpa only [getElem?_set_ne hne] using H.free (by omega) hlt
    case labels_eq =>
      exact fun hl' => (field_update IndexEntry.seriesLabels _).trans (H.labels_eq hl')
    case oldest_eq =>
      intro l' p' hl'
      obtain ⟨v, hv, hold⟩ := H.oldest_eq hl'
      refine ⟨v, by rwa [append_nil], ?_⟩
      dsimp only
      rwa [hlen, field_update IndexEntry.oldest]
    case newest_eq =>
      intro l' p' hl' w hw
      dsimp only
      rw [hlen]
      rw [map_append, map_singleton] at hw
      have hstart' : a ≤ (h.map fst).length := by rwa [length_map]
      by_cases heq : l = l'
      · subst heq
        obtain rfl : p' = p := some.inj (hl'.symm.trans hl)
        rw [last_concat_self hstart', some.injEq, length_map] at hw
        simp [hw]
      · rw [last_concat_of_ne hstart' heq] at hw
        simpa [(H.addr_ne hl hl' heq).symm] using H.newest_eq hl' hw
  · exact fun i => field_update IndexEntry.seriesLabels i

end Linked

end CircularExemplarStorage

end Prometheus.Exemplars
