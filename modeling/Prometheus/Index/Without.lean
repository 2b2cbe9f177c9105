import Prometheus.Index.PostingsCursor

/-!
# The difference of cursors is a cursor

`removedPostings_isCursor`: over a full and a remove iterator that are cursors, `Without` is one
over the difference of their sets.

The iterator is always one element of the full list ahead of the one it shows. A call looks for the
first element from some `lim` on: `c + 1` for `Next` after `c`, and `v` for `Seek(v)`. `RemoveInv`
is what the remove list has to say about the elements from `lim` on.

An iterator that has failed may call a full list that has failed before, and that may come back
(`Dead`). Either the full list does not go beyond the bound itself, or the full list came to its end
at an element to be removed, and the remove list still stands at that element.
-/

namespace Prometheus.Index

variable {rok : Bool} {fuel : ℕ}

namespace RemovedPostings

variable {F D : Type} {pf : Postings F} {pr : Postings D} {Lf Af Lr Ar : Set ℕ}
  {okf okr : ℕ → Prop} {Rf : F → Pos → Prop} {Rr : D → Pos → Prop} {rp : RemovedPostings F D}
  {lim c f l b v : ℕ}

/-! ### Positions -/

/-- The remove list is at its first element from `lim` on, or has none. -/
def RemoveInv (Lr : Set ℕ) (Rr : D → Pos → Prop) (lim : ℕ) (remove : D) : Bool → Prop
  | true => ∃ r, Rr remove (.alive r) ∧ r ≠ 0 ∧ ∀ x ∈ Lr, lim ≤ x → r ≤ x
  | false => ∃ l b, Rr remove (.dead l b) ∧ b ≤ lim ∧ ∀ x ∈ Lr, x < lim

/-- A failed difference. -/
structure Dead (Af : Set ℕ) (Rf : F → Pos → Prop) (Rr : D → Pos → Prop) (l b : ℕ)
    (rp : RemovedPostings F D) : Prop where
  started : rp.initialized = true
  fok : rp.fok = false
  le_cur : l ≤ rp.cur
  cur_lt : rp.cur < b
  cur_mem : rp.cur = 0 ∨ rp.cur ∈ Af
  ended : ∃ lf bf pos, Rf rp.full (.dead lf bf) ∧ Rr rp.remove pos ∧ rp.cur ≤ lf ∧
    (bf ≤ b ∨ bf = lf + 1 ∧ pos = .alive lf)

/-- The full list is ahead of `c`. -/
def FullInv (Lf : Set ℕ) (Rf : F → Pos → Prop) (c : ℕ) (full : F) : Bool → Prop
  | true => ∃ f, Rf full (.alive f) ∧ IsLeast {x | x ∈ Lf ∧ c < x} f
  | false => Rf full (.dead c (c + 1)) ∧ ∀ x ∈ Lf, x ≤ c

/-- A difference that shows `c`. -/
structure Showing (Lf Lr : Set ℕ) (Rf : F → Pos → Prop) (Rr : D → Pos → Prop) (c : ℕ)
    (rp : RemovedPostings F D) : Prop where
  started : rp.initialized = true
  mem : c ∈ Lf \ Lr
  full : FullInv Lf Rf c rp.full rp.fok
  remove : RemoveInv Lr Rr (c + 1) rp.remove rp.rok

variable (Lf Af Lr Rf Rr rp)

/-- The position of a difference. -/
def Stands : Pos → Prop
  | .alive c => rp.cur = c ∧ if c = 0 then rp.initialized = false ∧ Rf rp.full (.alive 0) ∧
      Rr rp.remove (.alive 0) else Showing Lf Lr Rf Rr c rp
  | .dead l b => Dead Af Rf Rr l b rp

variable {Lf Af Lr Rf Rr rp}

/-! ### The loop -/

/-- The loop looks for the first element from `lim` on. -/
structure LoopInv (Lf Af Lr : Set ℕ) (Rf : F → Pos → Prop) (Rr : D → Pos → Prop) (lim : ℕ)
    (rp : RemovedPostings F D) : Prop where
  started : rp.initialized = true
  cur_lt : rp.cur < lim
  cur_mem : rp.cur = 0 ∨ rp.cur ∈ Af
  full : if rp.fok then ∃ f, Rf rp.full (.alive f) ∧ lim ≤ f ∧ (∀ x ∈ Lf \ Lr, lim ≤ x → f ≤ x) ∧
      RemoveInv Lr Rr f rp.remove rp.rok
    else (∀ x ∈ Lf \ Lr, x < lim) ∧ Dead Af Rf Rr rp.cur lim rp

lemma RemoveInv.mono {lim' : ℕ} {remove : D} (h : RemoveInv Lr Rr lim remove rok)
    (hle : lim ≤ lim') : RemoveInv Lr Rr lim' remove rok := by
  cases rok with
  | true =>
    obtain ⟨r, hr, hne, hleast⟩ := h
    exact ⟨r, hr, hne, fun x hx hx' => hleast x hx (hle.trans hx')⟩
  | false =>
    obtain ⟨l, b, hd, hb, hnone⟩ := h
    exact ⟨l, b, hd, hb.trans hle, fun x hx => (hnone x hx).trans_le hle⟩

section Calls

variable (hf : IsCursor pf Lf Af okf Rf) (hr : IsCursor pr Lr Ar okr Rr) {remove : D}

include hr in
/-- `Seek` on the remove list, beyond where it has been looked at. -/
lemma RemoveInv.seek (h : RemoveInv Lr Rr lim remove rok)
    (hle : lim ≤ v) (hv : 1 ≤ v) (hok : okr v) :
    ∃ rok' remove', pr.seek remove v = some (rok', remove') ∧ RemoveInv Lr Rr v remove' rok' ∧
      (rok' = true → v ≤ pr.atRef remove') := by
  cases rok with
  | true =>
    obtain ⟨r, hrr, hne, hleast⟩ := h
    rcases hr.seek_alive hrr hv hok with ⟨hle', d, hseek, hd⟩ | ⟨-, x, d, hx, hseek, hd⟩ |
      ⟨-, hall, d, hseek, hd⟩
    · exact ⟨true, d, hseek, ⟨r, hd, hne, fun x hx hx' => hleast x hx (hle.trans hx')⟩,
        fun _ => hr.at_eq hd hne ▸ hle'⟩
    · have hxne : x ≠ 0 := Nat.one_le_iff_ne_zero.1 (hv.trans hx.1.2)
      exact ⟨true, d, hseek, ⟨x, hd, hxne, fun y hy hy' => hx.2 ⟨hy, hy'⟩⟩,
        fun _ => hr.at_eq hd hxne ▸ hx.1.2⟩
    · exact ⟨false, d, hseek, ⟨r, v, hd, le_refl _, hall⟩, by simp⟩
  | false =>
    obtain ⟨l, b, hd, hb, hnone⟩ := h
    rcases hr.seek_dead hd hv hok with ⟨d, hseek, hd'⟩ | ⟨x, d, -, -, -, -, hle', hlt, -⟩
    · exact ⟨false, d, hseek, ⟨l, _, hd', by omega, fun x hx => (hnone x hx).trans_le hle⟩, by simp⟩
    · omega

include hf in
/-- The element ahead is shown, and the full list goes on. -/
lemma take_spec (hstart : rp.initialized = true) (hfull : Rf rp.full (.alive f))
    (hmem : f ∈ Lf \ Lr) (hremove : RemoveInv Lr Rr (f + 1) rp.remove rp.rok) :
    ∃ rp', rp.take pf = some (true, rp') ∧ Stands Lf Af Lr Rf Rr rp' (.alive f) := by
  have hne : f ≠ 0 := Nat.one_le_iff_ne_zero.1 (hf.bounds f (hf.sub hmem.1)).1
  have hat := hf.at_eq hfull hne
  have hstands : ∀ full fok, FullInv Lf Rf f full fok →
      Stands Lf Af Lr Rf Rr
        { rp with cur := pf.atRef rp.full, full := full, fok := fok } (.alive f) :=
    fun full fok h => ⟨hat, by rw [if_neg hne]; exact ⟨hstart, hmem, h, hremove⟩⟩
  rcases hf.next_alive hfull with ⟨f', full, hf', hnext, hfull'⟩ | ⟨hall, full, hnext, hfull'⟩
  · exact ⟨_, by simp [take, hnext], hstands full true ⟨f', hfull', hf'⟩⟩
  · exact ⟨_, by simp [take, hnext], hstands full false ⟨hfull', hall⟩⟩

attribute [local simp] seek

variable (pf pr rp)

/-- The number of turns left: an element of the full list takes two at most. -/
def turns : ℕ :=
  2 * (2 ^ 64 - pf.atRef rp.full) +
    if rp.rok = true ∧ pr.atRef rp.remove < pf.atRef rp.full then 1 else 0

variable {pf pr rp}

include hf in
/-- The element ahead is one to remove: the full list goes on. -/
lemma LoopInv.skip (h : LoopInv Lf Af Lr Rf Rr lim rp) (hfull : Rf rp.full (.alive f))
    (hlim : lim ≤ f) (hleast : ∀ x ∈ Lf \ Lr, lim ≤ x → f ≤ x)
    (hremove : RemoveInv Lr Rr f rp.remove rp.rok) (hr₁ : Rr rp.remove (.alive f)) (hmem : f ∈ Lr) :
    ∃ fok full, pf.next rp.full = some (fok, full) ∧
      LoopInv Lf Af Lr Rf Rr lim { rp with full := full, fok := fok } ∧
      (fok = true → turns pf pr { rp with full := full, fok := fok } < 2 * (2 ^ 64 - f)) := by
  have hgt : ∀ x ∈ Lf \ Lr, lim ≤ x → f < x := fun x hx hx' =>
    lt_of_le_of_ne (hleast x hx hx') fun heq => hx.2 (heq ▸ hmem)
  rcases hf.next_alive hfull with ⟨f', full, hf', hnext, hfull'⟩ | ⟨hall, full, hnext, hfull'⟩
  · refine ⟨true, full, hnext, ⟨h.started, h.cur_lt, h.cur_mem, ?_⟩, fun _ => ?_⟩
    · exact ⟨f', hfull', hlim.trans hf'.1.2.le, fun x hx hx' => hf'.2 ⟨hx.1, hgt x hx hx'⟩,
        hremove.mono hf'.1.2.le⟩
    · have hlt : f < f' := hf'.1.2
      have hbound := (hf.bounds f' (hf.sub hf'.1.1)).2
      rw [turns, hf.at_eq hfull' (Nat.ne_zero_of_lt hlt)]
      split_ifs <;> omega
  · refine ⟨false, full, hnext, ⟨h.started, h.cur_lt, h.cur_mem, ?_, ?_⟩, by simp⟩
    · intro x hx
      by_contra hle
      exact (hall x hx.1).not_gt (hgt x hx (not_lt.1 hle))
    · exact ⟨h.started, rfl, le_refl _, h.cur_lt, h.cur_mem, f, f + 1, .alive f, hfull', hr₁,
        (h.cur_lt.trans_le hlim).le, .inr ⟨rfl, rfl⟩⟩

include hf hr in
lemma loop_alive (hA : ∀ a ∈ Af, okr a) (hpos : 0 < fuel)
    (h : LoopInv Lf Af Lr Rf Rr lim rp) (hfuel : rp.fok = true → turns pf pr rp < fuel) :
    MovesTo (Lf \ Lr) (Stands Lf Af Lr Rf Rr) rp.cur lim (rp.loop pf pr fuel) := by
  induction fuel generalizing rp with
  | zero => omega
  | succ fuel ih =>
    have hfull := h.full
    cases hfok : rp.fok with
    | false =>
      rw [hfok] at hfull
      exact .inr ⟨hfull.1, rp, by simp [loop, hfok], hfull.2⟩
    | true =>
      rw [hfok, if_pos rfl] at hfull
      obtain ⟨f, hf₁, hlim, hleast, hremove⟩ := hfull
      have hlimpos : 1 ≤ lim := Nat.one_le_iff_ne_zero.2 (Nat.ne_zero_of_lt h.cur_lt)
      have hne : f ≠ 0 := Nat.one_le_iff_ne_zero.1 (hlimpos.trans hlim)
      have hfmem : f ∈ Lf := (hf.mem hf₁).resolve_left hne
      have hfat := hf.at_eq hf₁ hne
      have hturns : turns pf pr rp < fuel + 1 := hfuel hfok
      have hbound := (hf.bounds f (hf.sub hfmem)).2
      -- If `f` is not to be removed, it is the element looked for.
      have hshow : f ∉ Lr → rp.loop pf pr (fuel + 1) = rp.take pf →
          MovesTo (Lf \ Lr) (Stands Lf Af Lr Rf Rr) rp.cur lim (rp.loop pf pr (fuel + 1)) := by
        intro hnot hloop
        obtain ⟨rp', htake, hstands⟩ :=
          take_spec hf h.started hf₁ ⟨hfmem, hnot⟩ (hremove.mono (Nat.le_succ f))
        exact .inl ⟨f, rp', ⟨⟨⟨hfmem, hnot⟩, hlim⟩, fun x hx => hleast x hx.1 hx.2⟩,
          hloop.trans htake,
          hstands⟩
      cases hrok : rp.rok with
      | false =>
        rw [hrok] at hremove
        obtain ⟨-, -, -, -, hnone⟩ := hremove
        exact hshow (fun hmem => (hnone f hmem).false) (by simp [loop, hfok, hrok])
      | true =>
        rw [hrok] at hremove
        have hremove' := hremove
        obtain ⟨r, hr₁, hrne, hrleast⟩ := hremove'
        have hrat := hr.at_eq hr₁ hrne
        rcases lt_trichotomy f r with hlt | rfl | hlt
        · exact hshow (fun hmem => (hrleast f hmem (le_refl f)).not_gt hlt)
            (by simp [loop, hfok, hrok, hfat, hrat, hlt])
        · obtain ⟨fok, full, hnext, hinv, hless⟩ :=
            h.skip hf hf₁ hlim hleast (hrok ▸ hremove) hr₁ ((hr.mem hr₁).resolve_left hne)
          rw [turns, hfat] at hturns
          have := @ih { rp with full := full, fok := fok } (by omega) hinv
            fun hfok' => (hless hfok').trans_le (by omega)
          simpa [loop, hfok, hrok, hfat, hrat, hnext] using this
        obtain ⟨rok, remove, hseek, hremove', hge⟩ :=
          hremove.seek hr (le_refl f) (Nat.one_le_iff_ne_zero.2 hne) (hA f (hf.sub hfmem))
        rw [turns, hfat, hrat, if_pos ⟨hrok, hlt⟩] at hturns
        have hinv : LoopInv Lf Af Lr Rf Rr lim { rp with remove := remove, rok := rok } :=
          ⟨h.started, h.cur_lt, h.cur_mem, by
            rw [if_pos hfok]; exact ⟨f, hf₁, hlim, hleast, hremove'⟩⟩
        have := ih (by omega) hinv fun _ => by
          rw [turns, hfat, if_neg fun hrok' => (hge hrok'.1).not_gt hrok'.2]
          omega
        simpa [loop, hfok, hrok, hfat, hrat, hlt, hlt.asymm, hseek] using this

variable (Rf Rr)

/-- What a failed full list that has come back at `x` can lead to. -/
def Back (x bf cur : ℕ) (res : Bool) (rp : RemovedPostings F D) : Prop :=
  rp.initialized = true ∧ rp.fok = false ∧ Rf rp.full (.dead x bf) ∧ (∃ pos, Rr rp.remove pos) ∧
    rp.cur = if res then x else cur

variable {Rf Rr}

include hf hr in
lemma loop_back {x bf fuel : ℕ} (hstart : rp.initialized = true) (hfok : rp.fok = true)
    (hfull : Rf rp.full (.dead x bf)) (hat : pf.atRef rp.full = x) (hx : 1 ≤ x) (hok : okr x)
    {pos : Pos} (hremove : Rr rp.remove pos)
    (hfuel : (if rp.rok = true ∧ pr.atRef rp.remove < x then 1 else 0) + 1 < fuel) :
    ∃ res rp', rp.loop pf pr fuel = some (res, rp') ∧ Back Rf Rr x bf rp.cur res rp' := by
  obtain ⟨full, hnext, hfull'⟩ := hf.next_dead hfull
  induction fuel generalizing rp pos with
  | zero => omega
  | succ fuel ih =>
    have htake : rp.loop pf pr (fuel + 1) = rp.take pf →
        ∃ res rp', rp.loop pf pr (fuel + 1) = some (res, rp') ∧ Back Rf Rr x bf rp.cur res rp' := by
      intro hloop
      refine ⟨true, { rp with cur := pf.atRef rp.full, full := full, fok := false },
        hloop.trans ?_, hstart, rfl, hfull', ⟨pos, hremove⟩, hat⟩
      simp [take, hnext]
    by_cases hrok : rp.rok = true
    · rcases lt_trichotomy x (pr.atRef rp.remove) with hlt | heq | hlt
      · exact htake (by simp [loop, hfok, hrok, hat, hlt])
      · obtain ⟨fuel, rfl⟩ := Nat.exists_eq_succ_of_ne_zero (by omega : fuel ≠ 0)
        refine ⟨false, { rp with full := full, fok := false }, ?_, hstart, rfl, hfull',
          ⟨pos, hremove⟩, rfl⟩
        simp [loop, hfok, hrok, hat, ← heq, hnext]
      · obtain ⟨rok, remove, pos', hseek, hremove', hres⟩ := hr.seek hremove hx hok
        rw [if_pos ⟨hrok, hlt⟩] at hfuel
        have := @ih { rp with remove := remove, rok := rok } hstart hfok hfull hat pos' hremove' (by
          rw [if_neg]
          · omega
          · rintro ⟨rfl, hlt'⟩
            exact (hres.2.1 ▸ hres.1.le_lo).not_gt hlt') hnext
        simpa [loop, hfok, hrok, hat, hlt, hlt.asymm, hseek] using this
    · exact htake (by simp [loop, hfok, hrok])

/-! ### The calls -/

variable (pf pr rp)

lemma turns_le : turns pf pr rp ≤ 2 ^ 65 + 1 := by
  rw [turns]
  split_ifs <;> omega

variable {pf pr rp}

include hr in
/-- The first `Next` on the remove list. -/
lemma removeInv_next (h : Rr remove (.alive 0)) :
    ∃ rok remove', pr.next remove = some (rok, remove') ∧ RemoveInv Lr Rr 1 remove' rok := by
  rcases hr.next_alive h with ⟨r, d, hleast, hnext, hd⟩ | ⟨hall, d, hnext, hd⟩
  · exact ⟨true, d, hnext, r, hd, hleast.1.2.ne', fun x hx hx' => hleast.2 ⟨hx, hx'⟩⟩
  · exact ⟨false, d, hnext, 0, 1, hd, le_refl _, fun x hx => Nat.lt_succ_of_le (hall x hx)⟩

include hr in
/-- The remove list has not started, or has been looked at below `v`. -/
lemma removeInv_seek (hv : 1 ≤ v) (hok : okr v)
    (h : Rr remove (.alive 0) ∨ RemoveInv Lr Rr v remove rok) :
    ∃ rok' remove', pr.seek remove v = some (rok', remove') ∧ RemoveInv Lr Rr v remove' rok' := by
  rcases h with h | h
  · rcases hr.seek_alive h hv hok with ⟨hle, -⟩ | ⟨-, x, d, hx, hseek, hd⟩ | ⟨-, hall, d, hseek, hd⟩
    · omega
    · exact ⟨true, d, hseek, x, hd, Nat.one_le_iff_ne_zero.1 (hv.trans hx.1.2),
        fun y hy hy' => hx.2 ⟨hy, hy'⟩⟩
    · exact ⟨false, d, hseek, 0, v, hd, le_refl _, hall⟩
  · obtain ⟨rok', remove', hseek, hinv, -⟩ := h.seek hr (le_refl v) hv hok
    exact ⟨rok', remove', hseek, hinv⟩

/-- The full list is at its first element from `lim` on, or has none. -/
def Ahead (Lf : Set ℕ) (Rf : F → Pos → Prop) (cur lim : ℕ) (full : F) : Bool → Prop
  | true => ∃ f, Rf full (.alive f) ∧ IsLeast {x | x ∈ Lf ∧ lim ≤ x} f
  | false => (∀ x ∈ Lf, x < lim) ∧ ∃ lf bf, Rf full (.dead lf bf) ∧ cur ≤ lf ∧ bf ≤ lim

lemma FullInv.ahead {full : F} {fok : Bool} (h : FullInv Lf Rf c full fok) :
    Ahead Lf Rf c (c + 1) full fok := by
  cases fok with
  | true => exact h
  | false => exact ⟨fun x hx => Nat.lt_succ_of_le (h.2 x hx), c, c + 1, h.1, le_refl _, le_refl _⟩

lemma loopInv_of_ahead (hstart : rp.initialized = true) (hlt : rp.cur < lim)
    (hmem : rp.cur = 0 ∨ rp.cur ∈ Af) (hfull : Ahead Lf Rf rp.cur lim rp.full rp.fok)
    (hremove : RemoveInv Lr Rr lim rp.remove rp.rok) : LoopInv Lf Af Lr Rf Rr lim rp := by
  refine ⟨hstart, hlt, hmem, ?_⟩
  cases hfok : rp.fok with
  | true =>
    rw [hfok] at hfull
    obtain ⟨f, hf₁, hleast⟩ := hfull
    exact ⟨f, hf₁, hleast.1.2, fun x hx hx' => hleast.2 ⟨hx.1, hx'⟩, hremove.mono hleast.1.2⟩
  | false =>
    rw [hfok] at hfull
    obtain ⟨hall, lf, bf, hdead, hle, hbf⟩ := hfull
    refine ⟨fun x hx => hall x hx.1, hstart, hfok, le_refl _, hlt, hmem, ?_⟩
    cases hrok : rp.rok with
    | true =>
      rw [hrok] at hremove
      obtain ⟨r, hr₁, -⟩ := hremove
      exact ⟨lf, bf, .alive r, hdead, hr₁, hle, .inl hbf⟩
    | false =>
      rw [hrok] at hremove
      obtain ⟨l, b, hr₁, -⟩ := hremove
      exact ⟨lf, bf, .dead l b, hdead, hr₁, hle, .inl hbf⟩

include hf in
/-- `Seek` on the full list, which has not started or is ahead of `c`. -/
lemma ahead_seek {full : F} {fok : Bool} (hv : 1 ≤ v) (hok : okf v) (hlt : c < v)
    (h : c = 0 ∧ Rf full (.alive 0) ∨ FullInv Lf Rf c full fok) :
    ∃ fok' full', pf.seek full v = some (fok', full') ∧ Ahead Lf Rf c v full' fok' := by
  -- From an element, of which nothing between it and `c` is missing.
  have halive : ∀ f, Rf full (.alive f) → c ≤ f → (v ≤ f → IsLeast {x | x ∈ Lf ∧ v ≤ x} f) →
      ∃ fok' full', pf.seek full v = some (fok', full') ∧ Ahead Lf Rf c v full' fok' := by
    intro f hf₁ hle hleast
    rcases hf.seek_alive hf₁ hv hok with ⟨hle', s, hseek, hs⟩ | ⟨-, x, s, hx, hseek, hs⟩ |
      ⟨-, hall, s, hseek, hs⟩
    · exact ⟨true, s, hseek, f, hs, hleast hle'⟩
    · exact ⟨true, s, hseek, x, hs, hx⟩
    · exact ⟨false, s, hseek, hall, f, v, hs, hle, le_refl _⟩
  rcases h with ⟨rfl, hfull⟩ | h
  · exact halive 0 hfull (le_refl _) (by omega)
  cases fok with
  | true =>
    obtain ⟨f, hf₁, hleast⟩ := h
    exact halive f hf₁ hleast.1.2.le fun hle =>
      ⟨⟨hleast.1.1, hle⟩, fun x hx => hleast.2 ⟨hx.1, hlt.trans_le hx.2⟩⟩
  | false =>
    rcases hf.seek_dead h.1 hv hok with ⟨s, hseek, hs⟩ | ⟨x, s, -, -, -, -, hle, hlt', -⟩
    · exact ⟨false, s, hseek, fun x hx => (h.2 x hx).trans_lt hlt, c, _, hs, le_refl _, by omega⟩
    · omega

section Alive

variable (hA : ∀ a ∈ Af, okr a) {fuel : ℕ} (hfuel : 2 ^ 65 + 1 < fuel)

include hf hr hA hfuel

variable (h : Stands Lf Af Lr Rf Rr rp (.alive c))
include h

lemma next_alive : MovesTo (Lf \ Lr) (Stands Lf Af Lr Rf Rr) c (c + 1) (rp.next pf pr fuel) := by
  have hloop : ∃ rp' : RemovedPostings F D, rp'.cur = c ∧ LoopInv Lf Af Lr Rf Rr (c + 1) rp' ∧
      rp.next pf pr fuel = rp'.loop pf pr fuel := by
    obtain ⟨rfl, h⟩ := h
    by_cases hzero : rp.cur = 0
    · rw [if_pos hzero] at h
      obtain ⟨hinit, hfull, hremove⟩ := h
      obtain ⟨rok, remove, hnextr, hremove'⟩ := removeInv_next hr hremove
      rcases hf.next_alive hfull with ⟨f, full, hleast, hnext, hfull'⟩ | ⟨hall, full, hnext, hfull'⟩
      · refine ⟨⟨full, remove, rp.cur, true, true, rok⟩,
          rfl, ?_, by simp [next, hinit, hnext, hnextr]⟩
        rw [hzero]
        exact loopInv_of_ahead rfl Nat.zero_lt_one (.inl rfl) ⟨f, hfull', hleast⟩ hremove'
      refine ⟨⟨full, remove, rp.cur, true, false, rok⟩,
        rfl, ?_, by simp [next, hinit, hnext, hnextr]⟩
      rw [hzero]
      exact loopInv_of_ahead rfl Nat.zero_lt_one (.inl rfl)
        ⟨fun x hx => Nat.lt_succ_of_le (hall x hx), 0, 1, hfull', le_refl _, le_refl _⟩ hremove'
    · rw [if_neg hzero] at h
      exact ⟨rp, rfl, loopInv_of_ahead h.started (Nat.lt_succ_self _) (.inr (hf.sub h.mem.1))
        h.full.ahead h.remove, by simp [next, h.started]⟩
  obtain ⟨rp', rfl, hinv, heq⟩ := hloop
  rw [heq]
  exact loop_alive hf hr hA (by omega) hinv fun _ => (turns_le pf pr rp').trans_lt hfuel

lemma seek_alive (hv : 1 ≤ v) (hokf : okf v) (hokr : okr v) :
    (v ≤ c ∧ ∃ rp', rp.seek pf pr fuel v = some (true, rp') ∧
        Stands Lf Af Lr Rf Rr rp' (.alive c)) ∨
      c < v ∧ MovesTo (Lf \ Lr) (Stands Lf Af Lr Rf Rr) c v (rp.seek pf pr fuel v) := by
  by_cases hle : v ≤ c
  · have := h.1
    exact .inl ⟨hle, rp, by simp [this, hle], h⟩
  have hlt := not_le.1 hle
  obtain ⟨rfl, h⟩ := h
  have hfull : rp.cur = 0 ∧ Rf rp.full (.alive 0) ∨ FullInv Lf Rf rp.cur rp.full rp.fok := by
    by_cases hzero : rp.cur = 0
    · rw [if_pos hzero] at h
      exact .inl ⟨hzero, h.2.1⟩
    · rw [if_neg hzero] at h
      exact .inr h.full
  have hremove : Rr rp.remove (.alive 0) ∨ RemoveInv Lr Rr v rp.remove rp.rok := by
    by_cases hzero : rp.cur = 0
    · rw [if_pos hzero] at h
      exact .inl h.2.2
    · rw [if_neg hzero] at h
      exact .inr (h.remove.mono hlt)
  have hmem : rp.cur = 0 ∨ rp.cur ∈ Af := by
    refine or_iff_not_imp_left.2 fun hzero => ?_
    rw [if_neg hzero] at h
    exact hf.sub h.mem.1
  obtain ⟨fok, full, hseekf, hahead⟩ := ahead_seek hf hv hokf hlt hfull
  obtain ⟨rok, remove, hseekr, hremove'⟩ := removeInv_seek hr hv hokr hremove
  have hinv : LoopInv Lf Af Lr Rf Rr v ⟨full, remove, rp.cur, true, fok, rok⟩ :=
    loopInv_of_ahead rfl hlt hmem hahead hremove'
  have heq : rp.seek pf pr fuel v = loop pf pr fuel ⟨full, remove, rp.cur, true, fok, rok⟩ := by
    simp [hlt.not_ge, hseekf, hseekr, next]
  refine .inr ⟨hlt, ?_⟩
  rw [heq]
  exact loop_alive hf hr hA (by omega) hinv fun _ => (turns_le pf pr _).trans_lt hfuel

end Alive

lemma Dead.mono {l' b' : ℕ} (h : Dead Af Rf Rr l b rp) (hl : l' ≤ rp.cur) (hb : b ≤ b') :
    Dead Af Rf Rr l' b' rp := by
  obtain ⟨lf, bf, pos, hfull, hremove, hle, hbf⟩ := h.ended
  exact ⟨h.started, h.fok, hl, h.cur_lt.trans_le hb, h.cur_mem, lf, bf, pos, hfull, hremove, hle,
    hbf.imp_left hb.trans'⟩

include hr in
/-- The remove list stands at the element at which the full list has come back. -/
lemma seek_stay {remove : D} (h : Rr remove (.alive f)) (hv : 1 ≤ v) (hle : v ≤ f) (hok : okr v) :
    ∃ remove', pr.seek remove v = some (true, remove') ∧ Rr remove' (.alive f) := by
  rcases hr.seek_alive h hv hok with ⟨-, d, hseek, hd⟩ | ⟨hlt, -⟩ | ⟨hlt, -⟩
  · exact ⟨d, hseek, hd⟩
  · omega
  · omega

variable (pf pr Af Rf Rr)

/-- What a `Seek` on a failed difference may do. -/
def SeekDead (l b v fuel : ℕ) (rp : RemovedPostings F D) : Prop :=
  (∃ rp', rp.seek pf pr fuel v = some (false, rp') ∧ Dead Af Rf Rr l (max b v) rp') ∨
    ∃ rp', rp.seek pf pr fuel v = some (true, rp') ∧ rp'.cur ∈ Af ∧ l ≤ rp'.cur ∧ v ≤ rp'.cur ∧
      rp'.cur < b ∧ Dead Af Rf Rr rp'.cur (max b v) rp'

variable {pf pr Af Rf Rr}

section Failed

variable {lf bf fuel : ℕ} (hfuel : 2 < fuel) (h : Dead Af Rf Rr l b rp) (hlt : rp.cur < v)
  (hv : 1 ≤ v) (hokf : okf v) (hokr : okr v) (hfull : Rf rp.full (.dead lf bf)) (hle : rp.cur ≤ lf)

include hf hr hfuel h hlt hv hokf hokr hfull hle

/-- The full list does not go beyond the bound. -/
lemma seek_dead_bounded (hA : ∀ a ∈ Af, okr a) {pos : Pos} (hremove : Rr rp.remove pos)
    (hbf : bf ≤ b) : SeekDead pf pr Af Rf Rr l b v fuel rp := by
  obtain ⟨rok, remove, pos', hseekr, hremove', hres⟩ := hr.seek hremove hv hokr
  have hcur := h.cur_lt
  have hlcur := h.le_cur
  rcases hf.seek_dead hfull hv hokf with ⟨full, hseekf, hfull'⟩ |
    ⟨x, full, hseekf, hat, hx, hlx, hvx, hxb, hfull'⟩
  · obtain ⟨fuel, rfl⟩ := Nat.exists_eq_succ_of_ne_zero (Nat.ne_zero_of_lt hfuel)
    refine .inl ⟨⟨full, remove, rp.cur, true, false, rok⟩, ?_, rfl, rfl, hlcur,
      lt_max_of_lt_left hcur, h.cur_mem, lf, _, pos', hfull', hremove', hle,
      .inl (max_le_max_right _ hbf)⟩
    simp [hlt.not_ge, hseekf, hseekr, next, loop]
  -- It comes back at `x`.
  have heq : rp.seek pf pr fuel v = loop pf pr fuel ⟨full, remove, rp.cur, true, true, rok⟩ := by
    simp [hlt.not_ge, hseekf, hseekr, next]
  obtain ⟨res, rp', hloop, hstart, hfok, hfull'', ⟨pos'', hremove''⟩, hcur'⟩ :=
    @loop_back _ _ pf pr _ _ _ _ okf okr _ _ ⟨full, remove, rp.cur, true, true, rok⟩ hf hr _ _ fuel
      rfl rfl hfull' hat (hv.trans hvx) (hA x hx) _ hremove' (by split_ifs <;> omega)
  have hended : ∀ l', l' ≤ rp'.cur → rp'.cur ≤ x → rp'.cur = 0 ∨ rp'.cur ∈ Af →
      Dead Af Rf Rr l' (max b v) rp' := fun l' hl' hx' hmem =>
    ⟨hstart, hfok, hl', by omega, hmem, x, _, pos'', hfull'', hremove'', hx',
      .inl (max_le_max_right _ hbf)⟩
  cases res with
  | true =>
    obtain rfl : rp'.cur = x := hcur'
    exact .inr ⟨rp', heq.trans hloop, hx, by omega, hvx, by omega,
      hended _ (le_refl _) (le_refl _) (.inr hx)⟩
  | false =>
    have hcur'' : rp'.cur = rp.cur := hcur'
    exact .inl ⟨rp', heq.trans hloop, hended l (by omega) (by omega) (hcur''.symm ▸ h.cur_mem)⟩

/-- The full list has come to its end at an element at which the remove list stands. -/
lemma seek_dead_removed (hbf : bf = lf + 1) (hremove : Rr rp.remove (.alive lf)) :
    SeekDead pf pr Af Rf Rr l b v fuel rp := by
  subst hbf
  have hcur := h.cur_lt
  obtain ⟨fuel, rfl⟩ := Nat.exists_eq_add_of_le' hfuel
  rcases hf.seek_dead hfull hv hokf with ⟨full, hseekf, hfull'⟩ |
    ⟨x, full, hseekf, hat, hx, hlx, hvx, hxb, hfull'⟩
  · obtain ⟨rok, remove, pos', hseekr, hremove', -⟩ := hr.seek hremove hv hokr
    have hseek : rp.seek pf pr (fuel + 3) v =
        some (false, ⟨full, remove, rp.cur, true, false, rok⟩) := by
      simp [hlt.not_ge, hseekf, hseekr, next, loop]
    refine .inl ⟨_, hseek, rfl, rfl, h.le_cur, lt_max_of_lt_left hcur, h.cur_mem, ?_⟩
    by_cases hvl : v ≤ lf
    · obtain ⟨remove', hseekr', hstay⟩ := seek_stay hr hremove hv hvl hokr
      obtain ⟨rfl, rfl⟩ : true = rok ∧ remove' = remove := by
        simpa using hseekr'.symm.trans hseekr
      exact ⟨lf, _, .alive lf, hfull', hstay, hle, .inr ⟨by omega, rfl⟩⟩
    · exact ⟨lf, _, pos', hfull', hremove', hle, .inl (by omega)⟩
  · obtain rfl : x = lf := by omega
    obtain ⟨remove, hseekr, hstay⟩ := seek_stay hr hremove hv hvx hokr
    obtain ⟨full', hnext, hfull''⟩ := hf.next_dead hfull'
    have hrat := hr.at_eq hstay (Nat.one_le_iff_ne_zero.1 (hv.trans hvx))
    refine .inl ⟨⟨full', remove, rp.cur, true, false, true⟩, ?_, rfl, rfl, h.le_cur,
      lt_max_of_lt_left hcur, h.cur_mem, x, _, .alive x, hfull'', hstay, hle, .inr ⟨by omega, rfl⟩⟩
    simp [hlt.not_ge, hseekf, hseekr, next, loop, hat, hrat, hnext]

end Failed

include hf hr in
lemma seek_dead (hA : ∀ a ∈ Af, okr a) (hfuel : 2 < fuel)
    (h : Dead Af Rf Rr l b rp) (hv : 1 ≤ v) (hokf : okf v) (hokr : okr v) :
    SeekDead pf pr Af Rf Rr l b v fuel rp := by
  by_cases hle : v ≤ rp.cur
  · exact .inr ⟨rp, by simp [hle], h.cur_mem.resolve_left (by omega), h.le_cur, hle, h.cur_lt,
      h.mono (le_refl _) (le_max_left _ _)⟩
  obtain ⟨lf, bf, pos, hfull, hremove, hle', hbf | ⟨hbf, rfl⟩⟩ := h.ended
  · exact seek_dead_bounded hf hr hfuel h (not_le.1 hle) hv hokf hokr hfull hle' hA hremove hbf
  · exact seek_dead_removed hf hr hfuel h (not_le.1 hle) hv hokf hokr hfull hle' hbf hremove

end Calls

end RemovedPostings

open RemovedPostings in
theorem removedPostings_isCursor {F D : Type} {pf : Postings F} {pr : Postings D}
    {Lf Af Lr Ar : Set ℕ} {okf okr : ℕ → Prop} {Rf : F → Pos → Prop} {Rr : D → Pos → Prop}
    (hf : IsCursor pf Lf Af okf Rf) (hr : IsCursor pr Lr Ar okr Rr) (hA : ∀ a ∈ Af, okr a)
    (hfuel : 2 ^ 65 + 1 < fuel) :
    IsCursor (removedPostings pf pr fuel) (Lf \ Lr) Af (fun v => okf v ∧ okr v)
      (Stands Lf Af Lr Rf Rr) := by
  refine .of_moves (fun x hx => hf.sub hx.1) hf.bounds (fun h => h.1) ?_ (next_alive hf hr hA hfuel)
    (fun h hv hok => seek_alive hf hr hA hfuel h hv hok.1 hok.2) ?_
    fun h hv hok => seek_dead hf hr hA (by omega) h hv hok.1 hok.2
  · rintro rp c ⟨-, h⟩
    refine or_iff_not_imp_left.2 fun hzero => ?_
    rw [if_neg hzero] at h
    exact h.mem
  · intro rp l b h
    obtain ⟨fuel, rfl⟩ := Nat.exists_eq_succ_of_ne_zero (Nat.ne_zero_of_lt hfuel)
    refine ⟨rp, ?_, h⟩
    simp [removedPostings, next, loop, h.started, h.fok]

end Prometheus.Index
