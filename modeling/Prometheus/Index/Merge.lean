import Prometheus.Index.PostingsCursor

/-!
# The union of cursors is a cursor

`mergedPostings_isCursor`: over iterators that are cursors, `Merge` is one over the union of their
sets.

Each open sequence of the tree is an iterator at the value of its node. `Merging L R p nodes lim`
says that nothing from `lim` on has been passed by: every element `x ≥ lim` of a sequence is at or
ahead of its node. `Next` from `c` and `Seek(v)` both move the winner to its first element from
some `lim` on (`c + 1` or `v`), as long as it is behind, and each such turn leaves one sequence less
behind `lim` (`behind`).
-/

namespace Prometheus.Index

variable {fuel v : ℕ}

namespace MergedPostings

variable {n : ℕ} {S : Fin n → Type} {ps : ∀ i, Postings (S i)} {L A : Fin n → Set ℕ}
  {ok : Fin n → ℕ → Prop} {R : ∀ i, S i → Pos → Prop} {p : ∀ i, S i} {nodes : Fin n → Option ℕ}
  {lim c : ℕ} {w : Fin n} {node : Option ℕ}

/-! ### The sequences -/

/-- Each node is the element its source is at, and none is past an element from `lim` on. -/
structure Merging (L : Fin n → Set ℕ) (R : ∀ i, S i → Pos → Prop) (p : ∀ i, S i)
    (nodes : Fin n → Option ℕ) (lim : ℕ) : Prop where
  node : ∀ {i v}, nodes i = some v → R i (p i) (.alive v) ∧ v ≠ 0
  cover : ∀ {i x}, x ∈ L i → lim ≤ x → ∃ v, nodes i = some v ∧ v ≤ x

attribute [local simp] next seek

lemma Merging.mono {lim' : ℕ} (h : Merging L R p nodes lim) (hle : lim ≤ lim') :
    Merging L R p nodes lim' :=
  ⟨h.node, fun hx hx' => h.cover hx (hle.trans hx')⟩

/-- The new node of a sequence is its first element from `lim` on. -/
def FirstFrom (L : Set ℕ) (R : Pos → Prop) (lim : ℕ) : Option ℕ → Prop
  | some x => IsLeast {y | y ∈ L ∧ lim ≤ y} x ∧ R (.alive x)
  | none => ∀ y ∈ L, y < lim

lemma Merging.update {s : S w} (h : Merging L R p nodes lim)
    (hL : ∀ x ∈ L w, x ≠ 0) (hnode : FirstFrom (L w) (R w s) lim node) :
    Merging L R (Function.update p w s) (Function.update nodes w node) lim where
  node := by
    intro i v hi
    rcases eq_or_ne i w with rfl | hne
    · obtain rfl : node = some v := by simpa using hi
      exact ⟨by simpa using hnode.2, hL v hnode.1.1.1⟩
    · simpa [hne] using h.node (by simpa [hne] using hi)
  cover := by
    intro i x hx hle
    rcases eq_or_ne i w with rfl | hne
    · cases node with
      | none => exact absurd hle (hnode x hx).not_ge
      | some v => exact ⟨v, by simp, hnode.1.2 ⟨hx, hle⟩⟩
    · simpa [hne] using h.cover hx hle

/-- The number of sequences behind `lim`. -/
def behind (nodes : Fin n → Option ℕ) (lim : ℕ) : ℕ :=
  (Finset.univ.filter fun i => ∃ v ∈ nodes i, v < lim).card

lemma behind_le (nodes : Fin n → Option ℕ) (lim : ℕ) : behind nodes lim ≤ n :=
  (Finset.card_filter_le _ _).trans (Finset.card_fin n).le

lemma behind_update (hw : nodes w = some v) (hv : v < lim)
    (hnode : ∀ x ∈ node, lim ≤ x) :
      behind (Function.update nodes w node) lim < behind nodes lim := by
  refine Finset.card_lt_card ((Finset.ssubset_iff_of_subset fun i hi => ?_).2 ⟨w, ?_, ?_⟩)
  · obtain ⟨-, x, hx, hlt⟩ := Finset.mem_filter.1 hi
    rcases eq_or_ne i w with rfl | hne
    · exact absurd (hnode x (by simpa using hx)) hlt.not_ge
    · exact Finset.mem_filter.2 ⟨Finset.mem_univ i, x, by simpa [hne] using hx, hlt⟩
  · exact Finset.mem_filter.2 ⟨Finset.mem_univ w, v, hw, hv⟩
  · intro hmem
    obtain ⟨-, x, hx, hlt⟩ := Finset.mem_filter.1 hmem
    exact absurd (hnode x (by simpa using hx)) hlt.not_ge

lemma FirstFrom.le {L : Set ℕ} {R : Pos → Prop} (h : FirstFrom L R lim node) :
    ∀ x ∈ node, lim ≤ x := by
  rintro x rfl
  exact h.1.1.2

section Moves

variable (hps : ∀ i, IsCursor (ps i) (L i) (A i) (ok i) (R i)) {i : Fin n}

include hps

lemma ne_zero_of_mem {x : ℕ} (hx : x ∈ L i) : x ≠ 0 :=
  Nat.one_le_iff_ne_zero.1 ((hps i).bounds x ((hps i).sub hx)).1

/-- `Next` on a sequence. -/
lemma firstFrom_next {s : S i} (hs : R i s (.alive c)) :
    ∃ res s', (ps i).next s = some (res, s') ∧
      FirstFrom (L i) (R i s') (c + 1) (if res then some ((ps i).atRef s') else none) := by
  rcases (hps i).next_alive hs with ⟨x, s', hx, hnext, hs'⟩ | ⟨hall, s', hnext, -⟩
  · have hat := (hps i).at_eq hs' (ne_zero_of_mem hps hx.1.1)
    exact ⟨true, s', hnext, by rw [if_pos rfl, hat]; exact ⟨hx, hs'⟩⟩
  · exact ⟨false, s', hnext, fun y hy => Nat.lt_succ_of_le (hall y hy)⟩

/-- `Seek` on a sequence that is behind. -/
lemma firstFrom_seek {s : S i} (hs : R i s (.alive c)) (hlt : c < lim)
    (hlim : 1 ≤ lim) (hok : ok i lim) :
    ∃ res s', (ps i).seek s lim = some (res, s') ∧
      FirstFrom (L i) (R i s') lim (if res then some ((ps i).atRef s') else none) := by
  rcases (hps i).seek_alive hs hlim hok with ⟨hle, -⟩ | ⟨-, x, s', hx, hseek, hs'⟩ |
    ⟨-, hall, s', hseek, -⟩
  · omega
  · have hat := (hps i).at_eq hs' (ne_zero_of_mem hps hx.1.1)
    exact ⟨true, s', hseek, by rw [if_pos rfl, hat]; exact ⟨hx, hs'⟩⟩
  · exact ⟨false, s', hseek, hall⟩

end Moves

/-! ### The tree -/

section Tree

variable {tree : LoserTree n} {it : MergedPostings S tree.T} {t : tree.T}

/-- The position of a merge. The tree is initialized by the first call. -/
def Stands (L : Fin n → Set ℕ) (R : ∀ i, S i → Pos → Prop) (it : MergedPostings S tree.T) :
    Pos → Prop
  | .alive c => it.cur = c ∧ tree.Valid (it.tree' tree) it.nodes ∧ Merging L R it.p it.nodes c ∧
      if c = 0 then it.t = none else ∃ t, it.t = some t ∧ it.nodes (tree.winner t) = some c
  | .dead _ _ => ∃ t, it.t = some t ∧ it.nodes (tree.winner t) = none

/-- The winner of `t` has moved to `s`, and the games have been played again. -/
def replay (it : MergedPostings S tree.T) (t : tree.T) (s : S (tree.winner t)) (node : Option ℕ) :
    MergedPostings S tree.T where
  p := Function.update it.p (tree.winner t) s
  nodes := Function.update it.nodes (tree.winner t) node
  t := some (tree.replayGames t (Function.update it.nodes (tree.winner t) node))
  cur := it.cur

lemma replay_valid (hvalid : tree.Valid t it.nodes) (s : S (tree.winner t)) (node : Option ℕ) :
    tree.Valid ((replay it t s node).tree' tree) (replay it t s node).nodes :=
  tree.replayGames_valid hvalid fun _ hj => Function.update_of_ne hj node it.nodes

lemma winner_isLeast (hvalid : tree.Valid t nodes) (h : Merging L R p nodes lim)
    (hw : nodes (tree.winner t) = some v) (hle : lim ≤ v)
    (hps : ∀ i, IsCursor (ps i) (L i) (A i) (ok i) (R i)) :
    IsLeast {x | (∃ i, x ∈ L i) ∧ lim ≤ x} v := by
  obtain ⟨halive, hv⟩ := h.node hw
  refine ⟨⟨⟨_, ((hps _).mem halive).resolve_left hv⟩, hle⟩, ?_⟩
  rintro x ⟨⟨i, hx⟩, hlx⟩
  obtain ⟨v', hi, hle'⟩ := h.cover hx hlx
  obtain ⟨v'', hw', hle''⟩ := tree.winner_le hvalid i v' hi
  obtain rfl : v = v'' := Option.some.inj (hw.symm.trans hw')
  exact hle''.trans hle'

/-- Once the winner is closed, nothing is left. -/
lemma lt_of_winner_none (hvalid : tree.Valid t nodes) (h : Merging L R p nodes lim)
    (hw : nodes (tree.winner t) = none) : ∀ x, (∃ i, x ∈ L i) → x < lim := by
  rintro x ⟨i, hx⟩
  by_contra hle
  obtain ⟨v, hi, -⟩ := h.cover hx (not_lt.1 hle)
  obtain ⟨v', hw', -⟩ := tree.winner_le hvalid i v hi
  rw [hw] at hw'
  cases hw'

variable (hps : ∀ i, IsCursor (ps i) (L i) (A i) (ok i) (R i)) {fuel : ℕ}

include hps

/-- A turn of the tree: the winner moves on, and the games are played again. -/
lemma treeNext_spec (hvalid : tree.Valid t it.nodes) (ht : it.t = some t)
    (h : Merging L R it.p it.nodes (c + 1)) (hw : it.nodes (tree.winner t) = some c) :
    ∃ it' t', it.treeNext tree ps = some ((it'.nodes (tree.winner t')).isSome, it') ∧
      it'.cur = it.cur ∧ it'.t = some t' ∧ tree.Valid t' it'.nodes ∧
      Merging L R it'.p it'.nodes (c + 1) ∧ behind it'.nodes (c + 1) < behind it.nodes (c + 1) ∧
      ∀ i, ∀ v ∈ it'.nodes i, v ∈ it.nodes i ∨ c < v := by
  obtain ⟨res, s', hnext, hfirst⟩ := firstFrom_next hps (h.node hw).1
  refine ⟨replay it t s' _, _, ?_, rfl, rfl, replay_valid hvalid s' _,
    h.update (fun x hx => ne_zero_of_mem hps hx) hfirst,
    behind_update hw (Nat.lt_succ_self c) hfirst.le, fun i v hv => ?_⟩
  · simp [treeNext, ht, top, tree', moveNext, hnext, hw, replay]
  rcases eq_or_ne i (tree.winner t) with rfl | hne
  · exact .inr (hfirst.le v (by simpa [replay] using hv))
  · exact .inl (by simpa [replay, hne] using hv)

/-- The loop of `Next` from `c`. -/
lemma next_loop (hvalid : tree.Valid t it.nodes) (ht : it.t = some t)
    (hcur : it.cur = c) (h : Merging L R it.p it.nodes (c + 1))
    (hw : it.nodes (tree.winner t) = some c) (hge : ∀ i, ∀ v ∈ it.nodes i, c ≤ v)
    (hfuel : behind it.nodes (c + 1) < fuel) :
    MovesTo {x | ∃ i, x ∈ L i} (Stands L R) c (c + 1) (next tree ps fuel it) := by
  induction fuel generalizing it t with
  | zero => omega
  | succ fuel ih =>
    obtain ⟨it', t', hturn, hcur', ht', hvalid', h', hbehind, hge'⟩ :=
      treeNext_spec hps hvalid ht h hw
    have hge'' : ∀ i, ∀ v ∈ it'.nodes i, c ≤ v := fun i v hv =>
      (hge' i v hv).elim (hge i v) Nat.le_of_lt
    have htree : it'.tree' tree = t' := by simp [tree', ht']
    cases hw' : it'.nodes (tree.winner t') with
    | none =>
      rw [hw'] at hturn
      exact .inr ⟨lt_of_winner_none hvalid' h' hw', it', by simp [hturn], t', ht', hw'⟩
    | some v =>
      rw [hw'] at hturn
      by_cases hv : v = c
      · subst hv
        have := ih hvalid' ht' (hcur'.trans hcur) h' hw' hge'' (by omega)
        simpa [hturn, top, htree, hw', hcur', hcur] using this
      have hlt : c < v := lt_of_le_of_ne (hge'' _ v hw') (Ne.symm hv)
      have hleast := winner_isLeast hvalid' h' hw' hlt hps
      refine .inl ⟨v, { it' with cur := v }, hleast, ?_, rfl, ?_, h'.mono hlt, ?_⟩
      · simp [hturn, top, htree, hw', hcur', hcur, hv]
      · simpa [tree', ht'] using hvalid'
      · simp [(h'.node hw').2, ht', hw']

/-- `Next` before the first element. -/
lemma next_fresh (hvalid : tree.Valid (it.tree' tree) it.nodes) (ht : it.t = none)
    (hcur : it.cur = 0) (h : Merging L R it.p it.nodes 0) (hfuel : 0 < fuel) :
    MovesTo {x | ∃ i, x ∈ L i} (Stands L R) 0 1 (next tree ps fuel it) := by
  obtain ⟨fuel, rfl⟩ := Nat.exists_eq_succ_of_ne_zero hfuel.ne'
  cases hw : it.nodes (tree.winner (it.tree' tree)) with
  | none =>
    refine .inr ⟨lt_of_winner_none hvalid (h.mono (Nat.zero_le 1)) hw,
      { it with t := some (it.tree' tree) }, ?_, _, rfl, hw⟩
    simp [treeNext, ht, top, hw]
  | some v =>
    have hv := (h.node hw).2
    have hleast := winner_isLeast hvalid (h.mono (Nat.zero_le 1)) hw
      (Nat.one_le_iff_ne_zero.2 hv) hps
    refine .inl ⟨v, { it with t := some (it.tree' tree), cur := v }, hleast, ?_, rfl, hvalid,
      h.mono (Nat.zero_le v), ?_⟩
    · have htop : it.nodes (tree.winner (tree.playGames it.nodes)) = some v := by
        simpa [tree', ht] using hw
      simp [treeNext, ht, top, tree', htop, hcur, hv]
    · simp [hv, hw]

/-- The loop of `Seek`. -/
lemma seek_loop (hv : 1 ≤ v) (hok : ∀ i, ok i v)
    (hvalid : tree.Valid (it.tree' tree) it.nodes) (h : Merging L R it.p it.nodes v)
    (hfuel : behind it.nodes v < fuel) (c : ℕ) :
    MovesTo {x | ∃ i, x ∈ L i} (Stands L R) c v (seek tree ps fuel it v) := by
  induction fuel generalizing it with
  | zero => omega
  | succ fuel ih =>
    cases hw : it.nodes (tree.winner (it.tree' tree)) with
    | none =>
      refine .inr ⟨lt_of_winner_none hvalid h hw, { it with t := some (it.tree' tree) }, ?_, _, rfl,
        hw⟩
      have htop : top tree { it with t := some (it.tree' tree) } = none := hw
      simp [htop]
    | some x =>
      have htop : top tree { it with t := some (it.tree' tree) } = some x := hw
      by_cases hlt : x < v
      · obtain ⟨res, s', hseek, hfirst⟩ := firstFrom_seek hps (h.node hw).1 hlt hv (hok _)
        have := @ih (replay it (it.tree' tree) s' _) (replay_valid hvalid s' _)
          (h.update (fun x hx => ne_zero_of_mem hps hx) hfirst)
          ((behind_update hw hlt hfirst.le).trans_le (Nat.le_of_lt_succ hfuel))
        have hturn : seek tree ps (fuel + 1) it v = seek tree ps fuel
            (replay it (it.tree' tree) s' (if res then some ((ps _).atRef s') else none)) v := by
          simp only [seek, htop, if_pos hlt]
          change ((ps _).seek (it.p (tree.winner (it.tree' tree))) v).bind _ = _
          rw [hseek]
          rfl
        rwa [hturn]
      · have hle := not_lt.1 hlt
        have hleast := winner_isLeast hvalid h hw hle hps
        refine .inl ⟨x, { it with t := some (it.tree' tree), cur := x }, hleast, ?_, rfl, hvalid,
          h.mono hle, ?_⟩
        · simp [htop, hlt]
        · simp [(h.node hw).2, hw]

lemma stands_next (hfuel : n < fuel) (h : Stands L R it (.alive c)) :
    MovesTo {x | ∃ i, x ∈ L i} (Stands L R) c (c + 1) (next tree ps fuel it) := by
  obtain ⟨hcur, hvalid, hmerging, hc⟩ := h
  by_cases hzero : c = 0
  · subst hzero
    exact next_fresh hps hvalid hc hcur hmerging (by omega)
  rw [if_neg hzero] at hc
  obtain ⟨t, ht, hw⟩ := hc
  have hvalid' : tree.Valid t it.nodes := by simpa [tree', ht] using hvalid
  refine next_loop hps hvalid' ht hcur (hmerging.mono (Nat.le_succ c)) hw (fun i v hv => ?_)
    ((behind_le _ _).trans_lt hfuel)
  obtain ⟨v', hw', hle⟩ := tree.winner_le hvalid' i v hv
  rw [hw] at hw'
  exact Option.some.inj hw' ▸ hle

lemma stands_seek (hfuel : n < fuel) (h : Stands L R it (.alive c)) (hv : 1 ≤ v)
    (hok : ∀ i, ok i v) :
    (v ≤ c ∧ ∃ it', seek tree ps fuel it v = some (true, it') ∧ Stands L R it' (.alive c)) ∨
      c < v ∧ MovesTo {x | ∃ i, x ∈ L i} (Stands L R) c v (seek tree ps fuel it v) := by
  obtain ⟨hcur, hvalid, hmerging, hc⟩ := h
  by_cases hle : v ≤ c
  · -- The winner is where the merge is.
    rw [if_neg (by omega)] at hc
    obtain ⟨t, ht, hw⟩ := hc
    obtain ⟨fuel, rfl⟩ := Nat.exists_eq_succ_of_ne_zero (Nat.ne_zero_of_lt hfuel)
    have htree : it.tree' tree = t := by simp [tree', ht]
    have htop : top tree { it with t := some (it.tree' tree) } = some c := htree.symm ▸ hw
    refine .inl ⟨hle, { it with t := some (it.tree' tree), cur := c }, ?_, rfl,
      hvalid, hmerging, ?_⟩
    · simp [htop, hle.not_gt]
    · rw [if_neg (by omega)]
      exact ⟨_, rfl, htree.symm ▸ hw⟩
  · have hlt := not_le.1 hle
    exact .inr ⟨hlt, seek_loop hps hv hok hvalid (hmerging.mono hlt.le)
      ((behind_le _ _).trans_lt hfuel) c⟩

omit hps in
lemma stands_dead_next {l b : ℕ} (hfuel : 0 < fuel) (h : Stands L R it (.dead l b)) :
    ∃ it', next tree ps fuel it = some (false, it') ∧ Stands L R it' (.dead l b) := by
  obtain ⟨fuel, rfl⟩ := Nat.exists_eq_succ_of_ne_zero hfuel.ne'
  obtain ⟨t, ht, hw⟩ := h
  exact ⟨it, by simp [treeNext, ht, top, tree', hw], t, ht, hw⟩

omit hps in
lemma stands_dead_seek {l b : ℕ} (hfuel : 0 < fuel) (h : Stands L R it (.dead l b)) :
    ∃ it', seek tree ps fuel it v = some (false, it') ∧ Stands L R it' (.dead l (max b v)) := by
  obtain ⟨fuel, rfl⟩ := Nat.exists_eq_succ_of_ne_zero hfuel.ne'
  obtain ⟨t, ht, hw⟩ := h
  refine ⟨{ it with t := some (it.tree' tree) }, ?_, t, by simp [tree', ht], hw⟩
  have htop : top tree { it with t := some (it.tree' tree) } = none := by
    simpa [top, tree', ht] using hw
  simp [htop]

/-! ### The new merge -/

/-- `Next` on the sequences listed, which have not started. -/
lemma foldlM_moveNext {is : List (Fin n)} (his : is.Nodup)
    (htodo : ∀ i ∈ is, R i (it.p i) (.alive 0))
    (hdone : ∀ i ∉ is, FirstFrom (L i) (R i (it.p i)) 1 (it.nodes i)) :
    ∃ it', is.foldlM (fun it i => it.moveNext ps i) it = some it' ∧ it'.t = it.t ∧
      it'.cur = it.cur ∧ ∀ i, FirstFrom (L i) (R i (it'.p i)) 1 (it'.nodes i) := by
  induction is generalizing it with
  | nil => exact ⟨it, rfl, rfl, rfl, fun i => hdone i (List.not_mem_nil)⟩
  | cons i is ih =>
    obtain ⟨hi, his⟩ := List.nodup_cons.1 his
    obtain ⟨res, s', hnext, hfirst⟩ := firstFrom_next hps (htodo i List.mem_cons_self)
    have hmove : it.moveNext ps i = some { it with
        p := Function.update it.p i s'
        nodes := Function.update it.nodes i (if res then some ((ps i).atRef s') else none) } := by
      simp [moveNext, hnext]
    simp only [List.foldlM_cons, hmove, Option.bind_eq_bind, Option.bind_some]
    refine ih his (fun j hj => ?_) fun j hj => ?_
    · have hne : j ≠ i := by
        rintro rfl
        exact hi hj
      simpa [hne] using htodo j (List.mem_cons_of_mem _ hj)
    · rcases eq_or_ne j i with rfl | hne
      · simpa using hfirst
      · simpa [hne] using hdone j (by simp [hne, hj])

lemma new_spec (hp : ∀ i, R i (p i) (.alive 0)) :
    ∃ it, new tree ps p = some it ∧ Stands L R it (.alive 0) := by
  obtain ⟨it, hnew, ht, hcur, hfirst⟩ :=
    @foldlM_moveNext _ _ _ _ _ _ _ tree ⟨p, fun _ => none, none, 0⟩ hps _ (List.nodup_finRange n)
      (fun i _ => hp i) fun i hi => absurd (List.mem_finRange i) hi
  refine ⟨it, hnew, hcur, ?_, ⟨fun {i v} hi => ?_, fun {i x} hx _ => ?_⟩, by simpa using ht⟩
  · rw [tree', ht]
    exact tree.playGames_valid it.nodes
  · have := hfirst i
    rw [hi] at this
    exact ⟨this.2, ne_zero_of_mem hps this.1.1.1⟩
  have hpos : 1 ≤ x := Nat.one_le_iff_ne_zero.2 (ne_zero_of_mem hps hx)
  have := hfirst i
  cases hi : it.nodes i with
  | none =>
    rw [hi] at this
    exact absurd hpos (this x hx).not_ge
  | some v =>
    rw [hi] at this
    exact ⟨v, rfl, this.1.2 ⟨hx, hpos⟩⟩

end Tree

end MergedPostings

open MergedPostings in
theorem mergedPostings_isCursor {n : ℕ} {S : Fin n → Type} {ps : ∀ i, Postings (S i)}
    {L A : Fin n → Set ℕ} {ok : Fin n → ℕ → Prop} {R : ∀ i, S i → Pos → Prop}
    (tree : LoserTree n) (hps : ∀ i, IsCursor (ps i) (L i) (A i) (ok i) (R i)) (hfuel : n < fuel) :
    IsCursor (mergedPostings tree ps fuel) {x | ∃ i, x ∈ L i} {x | ∃ i, x ∈ A i}
      (fun v => ∀ i, ok i v) (Stands L R) := by
  refine .of_moves (fun x ⟨i, hx⟩ => ⟨i, (hps i).sub hx⟩) (fun a ⟨i, ha⟩ => (hps i).bounds a ha)
    (fun h => h.1) ?_ (stands_next hps hfuel) (stands_seek hps hfuel)
    (stands_dead_next (by omega)) fun h _ _ => .inl (stands_dead_seek (by omega) h)
  rintro it c ⟨-, -, hmerging, hc⟩
  by_cases hzero : c = 0
  · exact .inl hzero
  rw [if_neg hzero] at hc
  obtain ⟨t, -, hw⟩ := hc
  exact .inr ⟨_, ((hps _).mem (hmerging.node hw).1).resolve_left hzero⟩

end Prometheus.Index
