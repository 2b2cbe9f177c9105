import Prometheus.Index.PostingsCursor

/-!
# The intersection of cursors is a cursor

`intersectPostings_isCursor`: over iterators that are cursors, `Intersect` is one over the
intersection of their sets.

The loop of `doNext` seeks every iterator for `cur` and raises `cur` to what an iterator returns
beyond it. `ScanRule I F` is its rule: an invariant `I` of `cur` and the positions that successful
seeks and raises keep, and that a failed seek turns into `F`. It is used twice, for a call on an
intersection that stands at an element (`AliveInv`) and for one that has failed (`DeadInv`).

The iterators of a failed intersection are at different positions, and a later call may move them
on. It stays failed because of one of them, `k`: it is dead and does not go to its bound, and the
bound is below that of the intersection or below where another iterator already is (`Bounded`).
-/

namespace Prometheus.Index

open Function List

namespace IntersectPostings

variable {n : ℕ} {S : Fin n → Type} {ps : ∀ i, Postings (S i)} {L A : Fin n → Set ℕ}
  {ok : Fin n → ℕ → Prop} {R : ∀ i, S i → Pos → Prop} {it : IntersectPostings S}
  {poss : Fin n → Pos} {pos : Pos} {i : Fin n} {l b v cur : ℕ} {U : Set ℕ}

/-! ### The loop -/

variable (R it poss)

/-- Each iterator is at its position. -/
def At : Prop :=
  ∀ i, R i (it.arr i) (poss i)

variable {R it poss}

attribute [local simp] nextAll next doNext scan

lemma At.update {s : S i} (h : At R it poss) (hs : R i s pos) (c : ℕ) :
    At R ⟨update it.arr i s, c⟩ (update poss i pos) := by
  intro j
  rcases eq_or_ne j i with rfl | hj
  · simpa using hs
  · simpa [hj] using h j

/-- An invariant of the scan, and what is left when one of the postings has ended. -/
structure ScanRule (L A : Fin n → Set ℕ) (I : ℕ → (Fin n → Pos) → Prop)
    (F : (Fin n → Pos) → Prop) : Prop where
  found : ∀ {cur poss i pos}, I cur poss → SeekTrue (L i) (A i) cur (poss i) pos →
    I cur (update poss i pos)
  raise : ∀ {cur poss} i, I cur poss → cur < (poss i).lo → I (poss i).lo poss
  fail : ∀ {cur poss i pos}, I cur poss → SeekFalse (L i) cur (poss i) pos → F (update poss i pos)

variable {I : ℕ → (Fin n → Pos) → Prop} {F : (Fin n → Pos) → Prop}

/-- The iterator has just been found at `cur`. -/
def Agrees (L A : Fin n → Set ℕ) (cur : ℕ) (poss : Fin n → Pos) (i : Fin n) : Prop :=
  ∃ pos, SeekTrue (L i) (A i) cur pos (poss i) ∧ (poss i).lo = cur ∧ cur ∈ A i

variable (L A I F)

/-- What a turn of the loop leaves. -/
def Scanned (cur : ℕ) (Done : Fin n → Prop) (cur' : ℕ) (poss' : Fin n → Pos) : Scan → Prop
  | .failed => F poss'
  | .raised => I cur' poss' ∧ cur < cur' ∧ ∃ i, cur' ∈ A i
  | .agreed => I cur' poss' ∧ cur' = cur ∧ ∀ i, Done i → Agrees L A cur poss' i

variable {L A I F}

section Loop

variable (hps : ∀ i, IsCursor (ps i) (L i) (A i) (ok i) (R i)) (hrule : ScanRule L A I F)

include hps hrule

lemma scan_spec (is : List (Fin n)) (Done : Fin n → Prop) (hI : I it.cur poss)
    (hat : At R it poss) (hpos : 1 ≤ it.cur) (hok : ∀ i, ok i it.cur)
    (hdone : ∀ i, Done i → Agrees L A it.cur poss i) :
    ∃ res it' poss', scan ps is it = some (res, it') ∧ At R it' poss' ∧
      Scanned L A I F it.cur (fun i => Done i ∨ i ∈ is) it'.cur poss' res := by
  induction is generalizing it poss Done with
  | nil => exact ⟨.agreed, it, poss, rfl, hat, hI, rfl, fun i hi => hdone i (by simpa using hi)⟩
  | cons i is ih =>
    obtain ⟨res, s', pos', hseek, hs', hres⟩ := (hps i).seek (hat i) hpos (hok i)
    have hat' := hat.update hs'
    cases res with
    | false => exact ⟨.failed, _, _, by simp [hseek], hat' it.cur, hrule.fail hI hres⟩
    | true =>
      obtain ⟨htrue, hatRef, hmem⟩ := hres
      have hI' := hrule.found hI htrue
      have hlo : (update poss i pos' i).lo = pos'.lo := by simp
      by_cases hgt : (ps i).atRef s' > it.cur
      · refine ⟨.raised, ⟨update it.arr i s', pos'.lo⟩, _, ?_, hat' _, ?_, ?_, i, hmem⟩
        · simp [hseek, hgt]
          exact hatRef
        · exact hlo ▸ hrule.raise i hI' (by rw [hlo]; omega)
        · exact hatRef ▸ hgt
      have hcur : pos'.lo = it.cur := by
        have := htrue.le_lo
        omega
      -- The iterators done so far stay as they are, and `i` has joined them.
      have hdone' : ∀ j, Done j ∨ j = i → Agrees L A it.cur (update poss i pos') j := by
        intro j hj
        rcases eq_or_ne j i with rfl | hne
        · exact ⟨poss j, by simpa using htrue, by simpa using hcur, hcur ▸ hmem⟩
        · simpa [Agrees, hne] using hdone j (hj.resolve_right hne)
      obtain ⟨res, it', poss', hscan, hat'', hpost⟩ :=
        @ih ⟨update it.arr i s', it.cur⟩ _ _ hI' (hat' _) hpos hok hdone'
      refine ⟨res, it', poss', by simpa [hseek, hgt] using hscan, hat'', ?_⟩
      simpa only [mem_cons, or_assoc] using hpost

/-- The loop ends, since `cur` is raised with every turn and always a reference. -/
lemma doNext_spec (hA : ∀ i j, ∀ a ∈ A j, ok i a) (fuel : ℕ) (it : IntersectPostings S)
    (hI : I it.cur poss) (hat : At R it poss) (hpos : 1 ≤ it.cur) (hok : ∀ i, ok i it.cur)
    (hfuel : 2 ^ 64 - it.cur < fuel) :
    ∃ res it' poss', doNext ps fuel it = some (res, it') ∧ At R it' poss' ∧
      if res then I it'.cur poss' ∧ ∀ i, Agrees L A it'.cur poss' i else F poss' := by
  induction fuel generalizing it poss with
  | zero => omega
  | succ fuel ih =>
    obtain ⟨res, it', poss', hscan, hat', hpost⟩ :=
      scan_spec hps hrule (finRange n) (fun _ => False) hI hat hpos hok (by simp)
    cases res with
    | failed => exact ⟨false, it', poss', by simp [hscan], hat', hpost⟩
    | agreed =>
      obtain ⟨hI', hcur, hagree⟩ := hpost
      exact ⟨true, it', poss', by simp [hscan], hat', hI',
        fun i => hcur ▸ hagree i (.inr (mem_finRange i))⟩
    | raised =>
      obtain ⟨hI', hlt, j, hj⟩ := hpost
      have hlt64 := (hps j).bounds _ hj
      obtain ⟨res, it'', poss'', hnext, hpost⟩ :=
        ih it' hI' hat' (by omega) (fun i => hA i j _ hj) (by omega)
      exact ⟨res, it'', poss'', by simpa [hscan] using hnext, hpost⟩

end Loop

/-! ### Failed intersections -/

/-- An iterator that is dead keeps the intersection below `b`. -/
def Bounded (b : ℕ) (poss : Fin n → Pos) : Prop :=
  ∃ k l' b', poss k = .dead l' b' ∧ (b' ≤ b ∨ ∃ j, b' ≤ (poss j).lo)

/-- The positions of an intersection that has failed. -/
def IntersectDead (l b : ℕ) (poss : Fin n → Pos) : Prop :=
  (∀ i, l ≤ (poss i).lo) ∧ Bounded b poss

lemma lo_le_update (h : (poss i).lo ≤ pos.lo) (j : Fin n) :
    (poss j).lo ≤ (update poss i pos j).lo := by
  rcases eq_or_ne j i with rfl | hj
  · simpa using h
  · simp [hj]

lemma Bounded.mono {b' : ℕ} (h : Bounded b poss) (hle : b ≤ b' ∨ ∃ j, b ≤ (poss j).lo) :
    Bounded b' poss := by
  obtain ⟨k, l', c, hk, hc | hj⟩ := h
  · exact ⟨k, l', c, hk, hle.imp hc.trans fun ⟨j, hj⟩ => ⟨j, hc.trans hj⟩⟩
  · exact ⟨k, l', c, hk, .inr hj⟩

/-- Moving an iterator on. If it is the dead one, its bound grows to `cur` at most. -/
lemma Bounded.update (h : Bounded b poss) (hlo : (poss i).lo ≤ pos.lo) (hcur : cur ≤ b)
    (hdead : ∀ l' b', poss i = .dead l' b' → ∃ l'', pos = .dead l'' (max b' cur)) :
    Bounded b (update poss i pos) := by
  obtain ⟨k, l', b', hk, hb'⟩ := h
  have hb'' : b' ≤ b ∨ ∃ j, b' ≤ (Function.update poss i pos j).lo :=
    hb'.imp_right fun ⟨j, hj⟩ => ⟨j, hj.trans (lo_le_update hlo j)⟩
  rcases eq_or_ne k i with rfl | hne
  · obtain ⟨l'', rfl⟩ := hdead l' b' hk
    refine ⟨k, l'', max b' cur, by simp, ?_⟩
    rcases le_total b' cur with hle | hle
    · exact .inl (by omega)
    · rw [max_eq_left hle] at hb'' ⊢
      exact hb''
  · exact ⟨k, l', b', by simpa [hne] using hk, hb''⟩

/-- A call on an intersection in `dead l b`, at `cur`, that has started with `Seek(v)`. -/
structure DeadInv (l b v cur : ℕ) (poss : Fin n → Pos) : Prop where
  le_lo : ∀ i, l ≤ (poss i).lo
  le_cur : v ≤ cur
  cur_le : cur ≤ v ∨ ∃ j, cur ≤ (poss j).lo
  bounded : Bounded (max b cur) poss

lemma deadInv_rule (L A : Fin n → Set ℕ) (l b v : ℕ) :
    ScanRule L A (DeadInv l b v) (IntersectDead l (max b v)) where
  found := by
    intro cur poss i pos h htrue
    have hlo := lo_le_update htrue.lo_le_lo
    refine ⟨fun j => (h.le_lo j).trans (hlo j), h.le_cur,
      h.cur_le.imp_right fun ⟨j, hj⟩ => ⟨j, hj.trans (hlo j)⟩,
      h.bounded.update htrue.lo_le_lo (le_max_right _ _) fun l' b' hi => ?_⟩
    rw [hi] at htrue
    obtain ⟨x, -, -, -, -, rfl⟩ := htrue
    exact ⟨x, rfl⟩
  raise := by
    intro cur poss i h hlt
    exact ⟨h.le_lo, h.le_cur.trans hlt.le, .inr ⟨i, le_refl _⟩,
      h.bounded.mono (.inl (max_le_max_left _ hlt.le))⟩
  fail := by
    intro cur poss i pos h hfalse
    have hlo := lo_le_update hfalse.lo_eq.ge
    refine ⟨fun j => (h.le_lo j).trans (hlo j), ?_⟩
    have hbounded : Bounded (max b cur) (update poss i pos) := by
      refine h.bounded.update hfalse.lo_eq.ge (le_max_right _ _) fun l' b' hi => ?_
      rw [hi] at hfalse
      exact ⟨l', hfalse⟩
    refine hbounded.mono ?_
    rcases le_total b cur with hle | hle
    · rw [max_eq_right hle]
      exact h.cur_le.imp (fun h => h.trans (le_max_right _ _)) fun ⟨j, hj⟩ => ⟨j, hj.trans (hlo j)⟩
    · exact .inl (by rw [max_eq_left hle]; exact le_max_left _ _)

/-- A failed intersection that returns true is below its bound. -/
lemma DeadInv.lt_of_agrees (h : DeadInv l b v cur poss) (hagree : ∀ i, Agrees L A cur poss i) :
    cur < b ∧ IntersectDead cur (max b v) poss := by
  obtain ⟨k, l', b', hk, hb'⟩ := h.bounded
  obtain ⟨pos, htrue, hlo, -⟩ := hagree k
  have hlt : cur < b' := by
    rw [hk] at htrue hlo
    cases pos with
    | alive p => obtain ⟨-, heq⟩ | ⟨-, c, -, heq⟩ := htrue <;> cases heq
    | dead l₀ b₀ =>
      obtain ⟨x, -, -, -, hx, heq⟩ := htrue
      injection heq with hl' hb
      subst hl' hb
      exact lt_max_of_lt_left (hlo ▸ hx)
  -- The other iterators are at `cur`, so it is not one of them that is beyond the bound.
  have hle : b' ≤ b := by
    rcases hb' with hle | ⟨j, hj⟩
    · omega
    · obtain ⟨-, -, hj', -⟩ := hagree j
      omega
  refine ⟨by omega, fun i => ?_, k, l', b', hk, .inl (hle.trans (le_max_left _ _))⟩
  obtain ⟨-, -, hi, -⟩ := hagree i
  exact hi.ge

/-! ### Intersections at an element -/

/-- A call on an intersection whose iterators are alive, from `l` on, that looks for the least
element of `U` and has started at `v`. -/
structure AliveInv (l v : ℕ) (U : Set ℕ) (cur : ℕ) (poss : Fin n → Pos) : Prop where
  le_cur : v ≤ cur
  cur_le : cur ≤ v ∨ ∃ j, cur ≤ (poss j).lo
  cur_least : ∀ x ∈ U, cur ≤ x
  alive : ∀ i, ∃ q, poss i = .alive q ∧ l ≤ q ∧ ∀ x ∈ U, q ≤ x

lemma AliveInv.update {q : ℕ} (h : AliveInv l v U cur poss) (hlo : (poss i).lo ≤ q)
    (hq : ∀ x ∈ U, q ≤ x) : AliveInv l v U cur (update poss i (.alive q)) where
  __ := h
  cur_le := h.cur_le.imp_right fun ⟨j, hj⟩ => ⟨j, hj.trans (lo_le_update hlo j)⟩
  alive j := by
    rcases eq_or_ne j i with rfl | hne
    · obtain ⟨q', hq', hl, -⟩ := h.alive j
      rw [hq'] at hlo
      exact ⟨q, by simp, hl.trans hlo, hq⟩
    · simpa [hne] using h.alive j

/-- An iterator fails: it is the one that keeps the intersection from coming back. -/
lemma AliveInv.fail {p c : ℕ} (h : AliveInv l v U cur poss) (hi : poss i = .alive p)
    (hc : c ≤ b ∨ ∃ j, c ≤ (poss j).lo) :
    IntersectDead l b (Function.update poss i (.dead p c)) := by
  have hlo : ∀ j, (poss j).lo ≤ (Function.update poss i (.dead p c) j).lo :=
    lo_le_update (by rw [hi]; exact le_refl _)
  refine ⟨fun j => ?_, i, p, c, by simp, hc.imp_right fun ⟨j, hj⟩ => ⟨j, hj.trans (hlo j)⟩⟩
  obtain ⟨q, hq, hl, -⟩ := h.alive j
  have hle := hlo j
  rw [hq] at hle
  exact hl.trans hle

lemma aliveInv_rule (hU : ∀ i, U ⊆ L i) :
    ScanRule L A (AliveInv l v U) fun poss => IntersectDead l v poss ∧ ∀ x, x ∉ U where
  found := by
    intro cur poss i pos h htrue
    have hlo := htrue.lo_le_lo
    obtain ⟨q, hq, -, hqU⟩ := h.alive i
    rw [hq] at htrue
    obtain ⟨-, rfl⟩ | ⟨-, c, hc, rfl⟩ := htrue
    · exact h.update hlo hqU
    · exact h.update hlo fun x hx => hc.2 ⟨hU i hx, h.cur_least x hx⟩
  raise := by
    intro cur poss i h hlt
    obtain ⟨q, hq, -, hqU⟩ := h.alive i
    exact ⟨h.le_cur.trans hlt.le, .inr ⟨i, le_refl _⟩, fun x hx => by rw [hq]; exact hqU x hx,
      h.alive⟩
  fail := by
    intro cur poss i pos h hfalse
    obtain ⟨q, hq, -, -⟩ := h.alive i
    rw [hq] at hfalse
    obtain ⟨-, hall, rfl⟩ := hfalse
    exact ⟨h.fail hq h.cur_le, fun x hx => (hall x (hU i hx)).not_ge (h.cur_least x hx)⟩

/-- An intersection at an element that returns true is at one element. -/
lemma AliveInv.eq_of_agrees (h : AliveInv l v U cur poss) (hagree : ∀ i, Agrees L A cur poss i) :
    poss = fun _ => .alive cur := by
  funext i
  obtain ⟨q, hq, -⟩ := h.alive i
  obtain ⟨-, -, hlo, -⟩ := hagree i
  rw [hq] at hlo ⊢
  exact congrArg Pos.alive hlo

/-! ### The loop of `Next` -/

/-- `Next` on every iterator, from `p`: those in `is` have yet to move. -/
structure NextInv (A : Fin n → Set ℕ) (p : ℕ) (U : Set ℕ) (is : List (Fin n)) (cur : ℕ)
    (poss : Fin n → Pos) : Prop extends AliveInv p p U cur poss where
  ref : cur = p ∨ ∃ j, cur ∈ A j
  todo : ∀ i ∈ is, poss i = .alive p
  moved : ∀ i, i ∈ is ∨ p < (poss i).lo ∧ p < cur

variable (hps : ∀ i, IsCursor (ps i) (L i) (A i) (ok i) (R i))

include hps

lemma nextAll_alive {p : ℕ} (hU : ∀ i, ∀ x ∈ U, x ∈ L i ∧ p < x) {is : List (Fin n)}
    (his : is.Nodup) (h : NextInv A p U is it.cur poss) (hat : At R it poss) :
    (∃ it' poss', nextAll ps is it = some (true, it') ∧ At R it' poss' ∧
        NextInv A p U [] it'.cur poss') ∨
      ∃ it' poss', nextAll ps is it = some (false, it') ∧ At R it' poss' ∧
        IntersectDead p (p + 1) poss' ∧ ∀ x, x ∉ U := by
  induction is generalizing it poss with
  | nil => exact .inl ⟨it, poss, rfl, hat, h⟩
  | cons i is ih =>
    obtain ⟨hi, his⟩ := nodup_cons.1 his
    have hpi := h.todo i mem_cons_self
    rcases (hps i).next_alive (hpi ▸ hat i) with ⟨c, s', hc, hnext, hs'⟩ | ⟨hall, s', hnext, hs'⟩
    · have hcpos : c ≠ 0 := (hc.1.2.trans_le' (Nat.zero_le p)).ne'
      have hatRef := (hps i).at_eq hs' hcpos
      have hcU : ∀ x ∈ U, c ≤ x := fun x hx => hc.2 (hU i x hx)
      have halive := h.toAliveInv.update (by rw [hpi]; exact hc.1.2.le) hcU
      have htodo : ∀ j ∈ is, update poss i (.alive c) j = .alive p := fun j hj => by
        rw [update_of_ne (by rintro rfl; exact hi hj)]
        exact h.todo j (mem_cons_of_mem _ hj)
      have hmoved : ∀ cur', p < cur' → it.cur ≤ cur' →
          ∀ j, j ∈ is ∨ p < (update poss i (.alive c) j).lo ∧ p < cur' := by
        intro cur' hp hle j
        rcases eq_or_ne j i with rfl | hne
        · exact .inr ⟨by simpa using hc.1.2, hp⟩
        · simpa [hne] using (h.moved j).imp_right fun hj => ⟨hj.1, hj.2.trans_le hle⟩
      have hp := hc.1.2
      by_cases hgt : c > it.cur
      · have := @ih ⟨update it.arr i s', c⟩ _ his
          ⟨⟨hp.le, .inr ⟨i, by simp⟩, hcU, halive.alive⟩,
            .inr ⟨i, (hps i).sub hc.1.1⟩, htodo, hmoved c hp hgt.le⟩
          (hat.update hs' c)
        simpa [hnext, hgt, hatRef] using this
      · have := @ih ⟨update it.arr i s', it.cur⟩ _ his
          ⟨halive, h.ref, htodo, hmoved it.cur (by omega) (le_refl _)⟩ (hat.update hs' it.cur)
        simpa [hnext, hgt, hatRef] using this
    · refine .inr ⟨⟨update it.arr i s', it.cur⟩, _, by simp [hnext],
        hat.update hs' _, h.fail hpi (.inl (le_refl _)), fun x hx => ?_⟩
      have := hU i x hx
      exact (hall x this.1).not_gt this.2

lemma nextAll_dead {is : List (Fin n)} (hdead : ∃ k ∈ is, ∃ l' b', poss k = .dead l' b')
    (h : IntersectDead l b poss) (hat : At R it poss) :
    ∃ it' poss', nextAll ps is it = some (false, it') ∧ At R it' poss' ∧
      IntersectDead l b poss' := by
  induction is generalizing it poss with
  | nil => simp at hdead
  | cons i is ih =>
    cases hpi : poss i with
    | dead l' b' =>
      obtain ⟨s', hnext, hs'⟩ := (hps i).next_dead (hpi ▸ hat i)
      refine ⟨⟨update it.arr i s', it.cur⟩, poss, by simp [hnext], ?_, h⟩
      have hat' := hat.update (hpi.symm ▸ hs' : R i s' (poss i)) it.cur
      rwa [update_eq_self] at hat'
    | alive p =>
      -- The iterator is not the dead one: however it moves, the intersection is still dead.
      have hmove : ∀ pos : Pos, p ≤ pos.lo → IntersectDead l b (update poss i pos) := by
        intro pos hlo
        have hlo' : (poss i).lo ≤ pos.lo := by rwa [hpi]
        refine ⟨fun j => (h.1 j).trans (lo_le_update hlo' j), ?_⟩
        exact h.2.update hlo' (Nat.zero_le b) fun l' b' heq => by simp [hpi] at heq
      rcases (hps i).next_alive (hpi ▸ hat i) with ⟨c, s', hc, hnext, hs'⟩ | ⟨-, s', hnext, hs'⟩
      · have hdead' : ∃ k ∈ is, ∃ l' b', update poss i (.alive c) k = .dead l' b' := by
          obtain ⟨k, hk, l', b', hkd⟩ := hdead
          have hne : k ≠ i := by
            rintro rfl
            simp [hpi] at hkd
          exact ⟨k, (mem_cons.1 hk).resolve_left hne, l', b', by simpa [hne] using hkd⟩
        have hstep := fun c' => @ih ⟨update it.arr i s', c'⟩ _ hdead'
          (hmove _ hc.1.2.le) (hat.update hs' c')
        by_cases hgt : (ps i).atRef s' > it.cur
        · simpa [hnext, hgt] using hstep _
        · simpa [hnext, hgt] using hstep _
      · exact ⟨⟨update it.arr i s', it.cur⟩, _, by simp [hnext],
          hat.update hs' _, hmove _ (le_refl p)⟩

/-! ### The intersection -/

omit hps in
/-- The position of an intersection. -/
def Stands (R : ∀ i, S i → Pos → Prop) (it : IntersectPostings S) : Pos → Prop
  | .alive p => it.cur = p ∧ At R it fun _ => .alive p
  | .dead l b => ∃ poss, At R it poss ∧ IntersectDead l b poss

omit hps in
lemma Stands.dead_mono {l' : ℕ} (h : Stands R it (.dead l b)) (hle : l' ≤ l) :
    Stands R it (.dead l' b) := by
  obtain ⟨poss, hat, hlo, hbounded⟩ := h
  exact ⟨poss, hat, fun i => hle.trans (hlo i), hbounded⟩

section Calls

variable [NeZero n] {p fuel : ℕ} (hA : ∀ i j, ∀ a ∈ A j, ok i a) (hfuel : 2 ^ 64 < fuel)

include hA hfuel

lemma doNext_alive (hU : ∀ i, U ⊆ L i) (it : IntersectPostings S)
    (h : AliveInv l v U it.cur poss) (hat : At R it poss) (hv : 1 ≤ v) (hok : ∀ i, ok i it.cur) :
    (∃ it', doNext ps fuel it = some (true, it') ∧ Stands R it' (.alive it'.cur) ∧
        (∀ i, it'.cur ∈ L i) ∧ l ≤ it'.cur ∧ v ≤ it'.cur ∧ ∀ x ∈ U, it'.cur ≤ x) ∨
      ∃ it', doNext ps fuel it = some (false, it') ∧ Stands R it' (.dead l v) ∧ ∀ x, x ∉ U := by
  have hpos := hv.trans h.le_cur
  obtain ⟨res, it', poss', hnext, hat', hpost⟩ :=
    doNext_spec hps (aliveInv_rule hU) hA fuel it h hat hpos hok (by omega)
  cases res with
  | false => exact .inr ⟨it', hnext, ⟨poss', hat', hpost.1⟩, hpost.2⟩
  | true =>
    obtain ⟨hinv, hagree⟩ := hpost
    obtain rfl := hinv.eq_of_agrees hagree
    have hne : it'.cur ≠ 0 := Nat.one_le_iff_ne_zero.1 (hv.trans hinv.le_cur)
    obtain ⟨q, hq, hl, -⟩ := hinv.alive 0
    injection hq with hq
    exact .inl ⟨it', hnext, ⟨rfl, hat'⟩, fun i => ((hps i).mem (hat' i)).resolve_left hne,
      hq ▸ hl, hinv.le_cur, hinv.cur_least⟩

lemma next_alive (h : Stands R it (.alive p)) :
    MovesTo {x | ∀ i, x ∈ L i} (Stands R) p (p + 1) (next ps fuel it) := by
  obtain ⟨rfl, hat⟩ := h
  set U := {x | (∀ i, x ∈ L i) ∧ it.cur < x}
  have hU : ∀ i, ∀ x ∈ U, x ∈ L i ∧ it.cur < x := fun i x hx => ⟨hx.1 i, hx.2⟩
  have hempty : (∀ x, x ∉ U) → ∀ x, (∀ i, x ∈ L i) → x < it.cur + 1 :=
    fun h x hx => not_le.1 fun hlt => h x ⟨hx, hlt⟩
  have hinit : NextInv A it.cur U (finRange n) it.cur fun _ => .alive it.cur :=
    ⟨⟨le_refl _, .inl (le_refl _), fun x hx => hx.2.le, fun _ => ⟨_, rfl, le_refl _,
      fun x hx => hx.2.le⟩⟩, .inl rfl, fun _ _ => rfl, fun i => .inl (mem_finRange i)⟩
  rcases nextAll_alive hps hU (nodup_finRange n) hinit hat with
    ⟨it₁, poss₁, hall, hat₁, h₁⟩ | ⟨it₁, poss₁, hall, hat₁, hdead, hnone⟩
  · have hmoved := fun i => (h₁.moved i).resolve_left (not_mem_nil)
    have hlt : it.cur < it₁.cur := (hmoved 0).2
    obtain ⟨j, hj⟩ := h₁.ref.resolve_left hlt.ne'
    -- Every iterator has moved, and `cur` is where one of them is.
    have hinv : AliveInv (it.cur + 1) (it.cur + 1) U it₁.cur poss₁ := by
      refine ⟨hlt, h₁.cur_le.imp_left fun hle => by omega, h₁.cur_least, fun i => ?_⟩
      obtain ⟨q, hq, -, hqU⟩ := h₁.alive i
      have := (hmoved i).1
      rw [hq] at this
      exact ⟨q, hq, this, hqU⟩
    rcases doNext_alive hps hA hfuel (fun i x hx => hx.1 i) it₁ hinv hat₁
        (Nat.le_add_left 1 _) (fun i => hA i j _ hj) with
      ⟨it₂, hnext, hstands, hmem, -, hle, hleast⟩ | ⟨it₂, hnext, hstands, hnone⟩
    · exact .inl ⟨it₂.cur, it₂, ⟨⟨hmem, hle⟩, hleast⟩, by simp [hall, hnext], hstands⟩
    · exact .inr ⟨hempty hnone, it₂, by simp [hall, hnext], hstands.dead_mono (Nat.le_succ _)⟩
  · exact .inr ⟨hempty hnone, it₁, by simp [hall], poss₁, hat₁, hdead⟩

lemma seek_alive (h : Stands R it (.alive p)) (hv : 1 ≤ v) (hok : ∀ i, ok i v) :
    (v ≤ p ∧ ∃ it', seek ps fuel it v = some (true, it') ∧ Stands R it' (.alive p)) ∨
      p < v ∧ MovesTo {x | ∀ i, x ∈ L i} (Stands R) p v (seek ps fuel it v) := by
  obtain ⟨rfl, hat⟩ := h
  set U := {x | (∀ i, x ∈ L i) ∧ it.cur ≤ x ∧ v ≤ x}
  have hinv : AliveInv it.cur v U v fun _ : Fin n => .alive it.cur :=
    ⟨le_refl _, .inl (le_refl _), fun x hx => hx.2.2,
      fun _ => ⟨_, rfl, le_refl _, fun x hx => hx.2.1⟩⟩
  have hself : v ≤ it.cur → it.cur ∈ U := fun hle =>
    ⟨fun i => ((hps i).mem (hat i)).resolve_left (by omega), le_refl _, hle⟩
  rcases doNext_alive hps hA hfuel (fun i x hx => hx.1 i) ⟨it.arr, v⟩ hinv hat hv hok with
    ⟨it₁, hseek, hstands, hmem, hl, hle, hleast⟩ | ⟨it₁, hseek, hstands, hnone⟩
  · by_cases hvp : v ≤ it.cur
    · have heq : it₁.cur = it.cur := le_antisymm (hleast _ (hself hvp)) hl
      exact .inl ⟨hvp, it₁, hseek, heq ▸ hstands⟩
    · refine .inr ⟨not_le.1 hvp, .inl ⟨it₁.cur, it₁, ⟨⟨hmem, hle⟩, fun x hx => ?_⟩, hseek, hstands⟩⟩
      exact hleast x ⟨hx.1, by have := hx.2; omega, hx.2⟩
  · have hvp : it.cur < v := not_le.1 fun hvp => hnone _ (hself hvp)
    refine .inr ⟨hvp, .inr ⟨fun x hx => not_le.1 fun hle => ?_, it₁, hseek, hstands⟩⟩
    exact hnone x ⟨hx, by omega, hle⟩

lemma seek_dead (h : Stands R it (.dead l b)) (hv : 1 ≤ v) (hok : ∀ i, ok i v) :
    (∃ it', seek ps fuel it v = some (false, it') ∧ Stands R it' (.dead l (max b v))) ∨
      ∃ it', seek ps fuel it v = some (true, it') ∧ (∃ i, it'.cur ∈ A i) ∧ l ≤ it'.cur ∧
        v ≤ it'.cur ∧ it'.cur < b ∧ Stands R it' (.dead it'.cur (max b v)) := by
  obtain ⟨poss, hat, hlo, hbounded⟩ := h
  have hinv : DeadInv l b v v poss :=
    ⟨hlo, le_refl _, .inl (le_refl _), hbounded.mono (.inl (le_max_left _ _))⟩
  obtain ⟨res, it', poss', hseek, hat', hpost⟩ :=
    doNext_spec hps (deadInv_rule L A l b v) hA fuel ⟨it.arr, v⟩ hinv hat hv hok (by omega)
  cases res with
  | false => exact .inl ⟨it', hseek, poss', hat', hpost⟩
  | true =>
    obtain ⟨hinv', hagree⟩ := hpost
    obtain ⟨hlt, hdead⟩ := hinv'.lt_of_agrees hagree
    obtain ⟨-, -, hlo', hmem⟩ := hagree 0
    exact .inr ⟨it', hseek, ⟨0, hmem⟩, hlo' ▸ hinv'.le_lo 0, hinv'.le_cur, hlt, poss', hat', hdead⟩

omit hA hfuel [NeZero n] in
lemma next_dead (h : Stands R it (.dead l b)) :
    ∃ it', next ps fuel it = some (false, it') ∧ Stands R it' (.dead l b) := by
  obtain ⟨poss, hat, hdead⟩ := h
  obtain ⟨k, l', b', hk, -⟩ := hdead.2
  obtain ⟨it', poss', hnext, hat', hdead'⟩ :=
    nextAll_dead hps ⟨k, mem_finRange k, l', b', hk⟩ hdead hat
  exact ⟨it', by simp [hnext], poss', hat', hdead'⟩

end Calls

end IntersectPostings

open IntersectPostings in
theorem intersectPostings_isCursor {n : ℕ} [NeZero n] {S : Fin n → Type}
    {ps : ∀ i, Postings (S i)} {L A : Fin n → Set ℕ} {ok : Fin n → ℕ → Prop}
    {R : ∀ i, S i → Pos → Prop} (hps : ∀ i, IsCursor (ps i) (L i) (A i) (ok i) (R i))
    (hA : ∀ i j, ∀ a ∈ A j, ok i a) {fuel : ℕ} (hfuel : 2 ^ 64 < fuel) :
    IsCursor (intersectPostings ps fuel) {x | ∀ i, x ∈ L i} {x | ∃ i, x ∈ A i}
      (fun v => ∀ i, ok i v) (Stands R) := by
  refine .of_moves (fun x hx => ⟨0, (hps 0).sub (hx 0)⟩) (fun a ⟨i, ha⟩ => (hps i).bounds a ha)
    (fun h => h.1) ?_ (next_alive hps hA hfuel) (seek_alive hps hA hfuel) (next_dead hps)
    (seek_dead hps hA hfuel)
  rintro it p ⟨-, hat⟩
  exact or_iff_not_imp_left.2 fun hp i => ((hps i).mem (hat i)).resolve_left hp

end Prometheus.Index
