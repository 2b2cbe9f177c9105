import Prometheus.Tsdb.OOOCompaction

/-!
# The blocks of an out-of-order compaction

`compactOOO` of `tsdb/db.go`. It goes through windows of the size of a block, from the one of the
least out-of-order time on, and writes a block for each. The start of the first window is computed
with a division that truncates. Below zero this is the end of the window that the least time is in,
unless a window starts just there, and then the samples of that first window are in no block
(`compactOOO_covers_iff`).

Writing a block may fail. Then the blocks that were written before are removed, and the error is
returned. The compactor, which writes them, is a parameter.

The times are far enough from the ends of their range that nothing overflows.
-/

namespace Prometheus.Tsdb.OOOCompaction

open List Int

/-! ### The model -/

/-- What `Compactor.Write` is given: the part of the head, and the half-open range of the block. -/
structure Write where
  head : OOOCompactionHead
  mint : ℤ
  maxt : ℤ

def OOOCompactionHead.cloneForTimeRange (ch : OOOCompactionHead) (mint maxt : ℤ) :
    OOOCompactionHead :=
  { ch with
    mint := mint
    maxt := maxt }

section Compact

variable {ULID ε : Type} (write : Write → Except ε (List ULID)) (ch : OOOCompactionHead)
  (blockSize : ℤ)

/-- The loop of `compactOOO` from `t` on: what it writes, with the ULIDs of the blocks, and the
error that ends it. -/
def compactLoop : ℕ → ℤ → List (Write × List ULID) × Option ε
  | 0, _ => ([], none)
  | fuel + 1, t =>
    if t ≤ ch.maxt then
      let mint := t
      let maxt := t + blockSize
      let w : Write := ⟨ch.cloneForTimeRange mint (maxt - 1), mint, maxt⟩
      match write w with
      | .error err => ([], some err)
      | .ok uids =>
        let (written, err) := compactLoop fuel (t + blockSize)
        ((w, uids) :: written, err)
    else ([], none)

/-- `compactOOO`: what it returns, and what it has written and not removed. The loop takes at most
one turn for each time up to the greatest one. -/
def compactOOO : Except ε (List ULID) × List (Write × List ULID) :=
  let t := blockSize * ch.mint.tdiv blockSize
  match compactLoop write ch blockSize (ch.maxt - t + 1).toNat t with
  | (written, none) => (.ok (written.flatMap (·.2)), written)
  -- Best effort removal of created block on any error.
  | (_, some err) => (.error err, [])

end Compact

/-! ### The windows -/

/-- The windows are disjoint, start at multiples of their size, and each time from `mint` up to the
end of the head is in exactly one of them. -/
structure Covers (ch : OOOCompactionHead) (blockSize mint : ℤ) (ws : List Write) : Prop where
  disjoint : ws.Pairwise fun w w' => w.maxt ≤ w'.mint
  aligned : ∀ w ∈ ws, blockSize ∣ w.mint ∧ w.maxt = w.mint + blockSize ∧
    w.head = ch.cloneForTimeRange w.mint (w.maxt - 1)
  covered : ∀ t, mint ≤ t → t ≤ ch.maxt → ∃! w, w ∈ ws ∧ w.mint ≤ t ∧ t < w.maxt

variable {ULID ε : Type} {write : Write → Except ε (List ULID)} {ch : OOOCompactionHead}
  {blockSize t : ℤ} {fuel : ℕ} {written : List (Write × List ULID)}

/-- A loop that ends without an error has written its windows. -/
lemma compactLoop_covers (hpos : 0 < blockSize) (ht : blockSize ∣ t)
    (hfuel : (ch.maxt - t + 1).toNat ≤ fuel)
    (hrun : compactLoop write ch blockSize fuel t = (written, none)) :
    (∀ w ∈ written.map (·.1), t ≤ w.mint) ∧ Covers ch blockSize t (written.map (·.1)) := by
  induction fuel generalizing t written with
  | zero =>
    cases hrun
    exact ⟨by simp, by simp, by simp, by omega⟩
  | succ fuel ih =>
    rw [compactLoop] at hrun
    split_ifs at hrun with hle
    · dsimp only at hrun
      split at hrun
      · cases hrun
      obtain ⟨rest, err, hrest⟩ : ∃ rest err, compactLoop write ch blockSize fuel (t + blockSize) =
        (rest, err) := ⟨_, _, rfl⟩
      rw [hrest] at hrun
      cases hrun
      obtain ⟨hstart, hdis, halign, hcov⟩ := ih (Int.dvd_add ht (Int.dvd_refl _)) (by omega) hrest
      rw [map_cons]
      refine ⟨forall_mem_cons.2 ⟨le_rfl, fun w hw => ?_⟩, pairwise_cons.2 ⟨hstart, hdis⟩,
        forall_mem_cons.2 ⟨⟨ht, rfl, rfl⟩, halign⟩, fun u hlow hhigh => ?_⟩
      · have := hstart w hw
        omega
      by_cases hu : u < t + blockSize
      · -- in the first window; the others start at its end
        refine ⟨_, ⟨mem_cons_self, hlow, hu⟩, ?_⟩
        rintro w ⟨_ | ⟨_, hw⟩, hwlow, -⟩
        · rfl
        · have := hstart w hw
          omega
      · obtain ⟨w, ⟨hw, hin⟩, huniq⟩ := hcov u (by omega) hhigh
        refine ⟨w, ⟨mem_cons_of_mem _ hw, hin⟩, ?_⟩
        rintro w' ⟨_ | ⟨_, hw'⟩, hin'⟩
        · exact absurd hin'.2 hu
        · exact huniq w' ⟨hw', hin'⟩
    · cases hrun
      exact ⟨by simp, by simp, by simp, by omega⟩

/-- The error that ends the loop is one of a block. -/
lemma exists_write_error {err : ε}
    (hrun : compactLoop write ch blockSize fuel t = (written, some err)) :
    ∃ w, write w = .error err := by
  induction fuel generalizing t written with
  | zero => cases hrun
  | succ fuel ih =>
    rw [compactLoop] at hrun
    split_ifs at hrun
    · dsimp only at hrun
      split at hrun
      case h_1 err' hwrite =>
        cases hrun
        exact ⟨_, hwrite⟩
      case h_2 uids hwrite =>
        obtain ⟨-, herr⟩ := Prod.ext_iff.1 hrun
        exact ih (Prod.ext rfl herr)
    · cases hrun

lemma start_le_iff (b m : ℤ) : b * m.tdiv b ≤ m ↔ 0 ≤ m ∨ b ∣ m := by
  have hdiv := mul_tdiv_add_tmod m b
  constructor
  · intro hle
    by_contra! hneg
    have hmod := tmod_nonneg b (show 0 ≤ -m by omega)
    rw [neg_tmod] at hmod
    exact hneg.2 (dvd_of_tmod_eq_zero (by omega))
  · rintro (hm | hm)
    · have := tmod_nonneg b hm
      omega
    · rw [Int.mul_tdiv_cancel' hm]

/-- A block cannot be written, and then none is left. Or all are written, and they have all times of
the head if and only if the least one is not negative or the start of a window. -/
theorem compactOOO_covers_iff (write : Write → Except ε (List ULID)) (ch : OOOCompactionHead)
    (blockSize : ℤ) (hpos : 0 < blockSize) (hle : ch.mint ≤ ch.maxt) :
    (∃ err, compactOOO write ch blockSize = (.error err, []) ∧ ∃ w, write w = .error err) ∨
      ∃ written, compactOOO write ch blockSize = (.ok (written.flatMap (·.2)), written) ∧
        (Covers ch blockSize ch.mint (written.map (·.1)) ↔ 0 ≤ ch.mint ∨ blockSize ∣ ch.mint) := by
  rw [compactOOO]
  split
  case h_2 err hrun => exact .inl ⟨err, rfl, exists_write_error hrun⟩
  case h_1 written hrun =>
    obtain ⟨hstart, hcovers⟩ := compactLoop_covers hpos (Int.dvd_mul_right ..) le_rfl hrun
    refine .inr ⟨written, rfl, ?_⟩
    rw [← start_le_iff]
    constructor
    · -- the window with the least time does not start before the first one
      intro h
      obtain ⟨w, ⟨hw, hlow, -⟩, -⟩ := h.covered ch.mint le_rfl hle
      exact (hstart w hw).trans hlow
    · exact fun hfirst => ⟨hcovers.disjoint, hcovers.aligned, fun t ht =>
        hcovers.covered t (hfirst.trans ht)⟩

/-- The head has times from `-5` to `5`, but with blocks of size `10` only the block from `0` to
`10` is written. -/
theorem compactOOO_negative :
    let ch : OOOCompactionHead := ⟨1, 0, 1, [1], -5, 5⟩
    let write : Write → Except Unit (List ℕ) := fun _ => .ok [7]
    let written := (compactOOO write ch 10).2.map (·.1)
    written.map (fun w => (w.mint, w.maxt)) = [(0, 10)] ∧ ¬Covers ch 10 ch.mint written := by
  refine ⟨by decide, fun h => ?_⟩
  obtain ⟨w, ⟨hw, hlow, -⟩, -⟩ := h.covered (-5) (by decide) (by decide)
  obtain rfl := mem_singleton.1 hw
  exact absurd hlow (by decide)

/-- Three blocks from `5` to `25`. -/
theorem compactOOO_covers_iff_positive :
    let ch : OOOCompactionHead := ⟨1, 0, 1, [1], 5, 25⟩
    let write : Write → Except Unit (List ℕ) := fun _ => .ok [7]
    0 < (10 : ℤ) ∧ ch.mint ≤ ch.maxt ∧ (compactOOO write ch 10).1.toOption = some [7, 7, 7] ∧
      Covers ch 10 ch.mint ((compactOOO write ch 10).2.map (·.1)) := by
  intro ch write
  refine ⟨by decide, by decide, by decide, ?_⟩
  rcases compactOOO_covers_iff write ch 10 (by decide) (by decide) with
    ⟨err, -, w, hw⟩ | ⟨written, heq, hcovers⟩
  · cases hw
  · rw [heq]
    exact hcovers.2 (.inl (by decide))

end Prometheus.Tsdb.OOOCompaction
