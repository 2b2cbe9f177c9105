import Prometheus.Tsdb.HeadChunks

/-!
# The IDs of the chunks of a series

Readers of the head pack the ID of a chunk into a chunk ref, and may resolve it when the series has
changed: `headChunkID`, `oooHeadChunkID` and `unpackHeadChunkRef` of `tsdb/head_read.go`. The ID
should find the chunk it was given to, or nothing when this chunk was truncated.

There are two ways to go wrong. An ID that does not fit into 23 bits runs into the bit of the other
space. And a truncation that leaves nothing out of order drops the whole struct `ooo` with the
counter `firstOOOChunkID` in it, after which the numbers begin again from 0.

All other steps keep the IDs good, since they make the windows of the two spaces evolve
(`SeriesChunks.Moves`). So these are the only ways.
-/

namespace Prometheus.Tsdb.SeriesChunks

open GoInt NumberedWindow List Nat

variable {V : Type} {s : SeriesChunks V} {id : ℕ}

/-! ### Packing IDs -/

lemma newHeadChunkRef_eq_some {hsr id ref : ℕ} :
    newHeadChunkRef hsr id = some ref ↔ hsr < 2 ^ 40 ∧ id < 2 ^ 24 ∧ ref = hsr <<< 24 ||| id := by
  rw [newHeadChunkRef]
  split_ifs with hsr' hid
  · simp only [false_iff]
    omega
  · simp only [false_iff]
    omega
  · simp only [Option.some.injEq, eq_comm]
    omega

lemma unpack_pack (hsr : ℕ) (hid : id < 2 ^ 24) : unpack (hsr <<< 24 ||| id) = (hsr, id) := by
  rw [← shiftLeft_add_eq_or_of_lt hid]
  simp only [unpack, shiftLeft_eq, shiftRight_eq_div_pow, Prod.mk.injEq]
  omega

/-- Bit 23 of the ID tells the space, and the bits below it are what is left of the ID. -/
lemma unpackHeadChunkRef_pack (hsr : ℕ) (hid : id < 2 ^ 24) :
    unpackHeadChunkRef (hsr <<< 24 ||| id) = (hsr, id % 2 ^ 23, id.testBit 23) := by
  have hmask : oooChunkIDMask = 2 ^ 23 := rfl
  rw [unpackHeadChunkRef, unpack_pack hsr hid]
  simp only [hmask, and_two_pow_sub_one_eq_mod, and_two_pow]
  cases id.testBit 23 <;> rfl

lemma testBit_of_lt (hlt : id < 2 ^ 24) : id.testBit 23 = decide (2 ^ 23 ≤ id) := by
  rw [testBit_eq_decide_div_mod_eq, decide_eq_decide]
  omega

lemma testBit_or_mask (n : ℕ) : (n ||| oooChunkIDMask).testBit 23 = true := by
  rw [testBit_or, Bool.or_eq_true]
  exact .inr (by decide)

lemma or_mask_mod (n : ℕ) : (n ||| oooChunkIDMask) % 2 ^ 23 = n % 2 ^ 23 := by
  rw [or_mod_two_pow]
  exact or_zero _

lemma or_mask_lt_iff {n : ℕ} : n ||| oooChunkIDMask < 2 ^ 24 ↔ n < 2 ^ 24 :=
  ⟨lt_of_le_of_lt left_le_or, fun h => or_lt_two_pow h (by decide)⟩

/-! ### Stability of IDs -/

variable (toEncodedChunks : List (ℤ × V) → List (OOOHeadChunk V)) {s' : SeriesChunks V} {op : Op V}

/-- The chunk `c` of the series `s` got an ID in one of the spaces. Packed into a ref, unpacked, and
resolved in a later state `s'`, the ID finds the same chunk, or nothing if the chunk is gone. -/
def Keeps (s s' : SeriesChunks V) (isOOO : Bool) (id : ℕ) (c : MemChunk V) : Prop :=
  ∃ ref cid r, newHeadChunkRef s.ref id = some ref ∧
    unpackHeadChunkRef ref = (s.ref, cid, isOOO) ∧ s'.chunkFromSeries cid isOOO = some r ∧
    ((∃ c', r = .ok c' ∧ Grows c c') ∨
      r = .error .notFound ∧ ∀ c' ∈ (s'.space isOOO).items, c'.serial ≠ c.serial)

/-- All IDs of a state are good in a later state. -/
def Stable (s s' : SeriesChunks V) : Prop :=
  (∀ p c, s.inOrder.items[p]? = some c → Keeps s s' false (s.headChunkID p) c) ∧
    ∀ o, s.ooo = some o → ∀ p c, s.outOfOrder.items[p]? = some c →
      Keeps s s' true (o.oooHeadChunkID p) c

/-- The IDs of the chunks have 23 bits, and the ref of a series that has chunks has 40 bits. -/
def IDsFit (s : SeriesChunks V) : Prop :=
  ∀ isOOO n c, (s.space isOOO).get? n = some c → s.ref < 2 ^ 40 ∧ n < oooChunkIDMask

/-- What holds throughout a run that does not drop `ooo`. -/
structure Inv (s : SeriesChunks V) : Prop extends Counted s where
  numbered : ∀ isOOO, Numbered MemChunk.serial (s.space isOOO)

lemma inv_new (ref : ℕ) : (new ref : SeriesChunks V).Inv where
  mmapped := by
    intro m hm
    cases hm
  ooo := by
    intro o ho
    cases ho
  created := rfl
  oooCreated := rfl
  numbered := by
    intro isOOO
    cases isOOO <;> exact numbered_nil 0

lemma Moves.space (h : Moves s s') (isOOO : Bool) : Evolves (s.space isOOO) (s'.space isOOO) := by
  cases isOOO with
  | false => exact h.inOrder
  | true => exact h.outOfOrder

lemma Moves.inv (h : Moves s s') (hs : s.Inv) : s'.Inv :=
  ⟨h.counted, fun isOOO => (h.space isOOO).numbered (fun _ _ hab => hab.1) (hs.numbered isOOO)⟩

lemma chunkFromSeries_eq (hs : s.OnDisk) {isOOO : Bool} (hooo : isOOO = true → s.ooo.isSome)
    (cid : ℕ) :
    s.chunkFromSeries cid isOOO =
      some (((s.space isOOO).get? cid).elim (.error .notFound) .ok) := by
  cases isOOO with
  | false => exact chunk_eq hs cid
  | true => exact oooChunk_eq hs (hooo rfl) cid

/-- The number of a chunk finds it, or nothing. -/
lemma chunkFromSeries_of_moves (hs : s.Inv) (h : Moves s s')
    {isOOO : Bool} (hooo : isOOO = true → s.ooo.isSome) {n : ℕ} {c : MemChunk V}
    (hc : (s.space isOOO).get? n = some c) :
    ∃ r, s'.chunkFromSeries n isOOO = some r ∧ ((∃ c', r = .ok c' ∧ Grows c c') ∨
      r = .error .notFound ∧ ∀ c' ∈ (s'.space isOOO).items, c'.serial ≠ c.serial) := by
  refine ⟨_, chunkFromSeries_eq h.counted.toOnDisk (fun hb => h.ooo (hooo hb)) n, ?_⟩
  rcases (h.space isOOO).get?_some Grows.refl Grows.trans hc with ⟨c', hc', hgrows⟩ | hlt
  · rw [hc']
    exact .inl ⟨c', rfl, hgrows⟩
  have hnone := Window.get?_eq_none_iff.2 (.inl hlt)
  rw [hnone, hs.numbered isOOO n c hc]
  exact .inr ⟨rfl, ((h.inv hs).numbered isOOO).get?_none hnone⟩

lemma stable_of_moves (hs : s.Inv) (h : Moves s s') (hfit : s.IDsFit) : Stable s s' := by
  constructor
  · intro p c hc
    have hget : (s.space false).get? (s.headChunkID p) = some c := by
      rw [headChunkID, add_comm]
      exact (Window.get?_add s.inOrder p).trans hc
    obtain ⟨href, hid⟩ := hfit false _ c hget
    have hid' : s.headChunkID p < 2 ^ 23 := hid
    obtain ⟨r, hr, hres⟩ := chunkFromSeries_of_moves hs h (by simp) hget
    refine ⟨_, s.headChunkID p, r, newHeadChunkRef_eq_some.2 ⟨href, by omega, rfl⟩, ?_, hr, hres⟩
    rw [unpackHeadChunkRef_pack _ (by omega), mod_eq_of_lt hid', testBit_of_lt (by omega),
      decide_eq_false (by omega)]
  · intro o ho p c hc
    have hget : (s.space true).get? (p + o.firstOOOChunkID) = some c := by
      have hfirst : s.outOfOrder.first = o.firstOOOChunkID := by rw [outOfOrder, ho]
      rw [add_comm, ← hfirst]
      exact (Window.get?_add s.outOfOrder p).trans hc
    obtain ⟨href, hid⟩ := hfit true _ c hget
    have hid' : p + o.firstOOOChunkID < 2 ^ 23 := hid
    have hlt : p + o.firstOOOChunkID ||| oooChunkIDMask < 2 ^ 24 := or_mask_lt_iff.2 (by omega)
    obtain ⟨r, hr, hres⟩ := chunkFromSeries_of_moves hs h (by simp [ho]) hget
    refine ⟨_, p + o.firstOOOChunkID, r, newHeadChunkRef_eq_some.2 ⟨href, hlt, rfl⟩, ?_, hr, hres⟩
    rw [MemSeriesOOOFields.oooHeadChunkID, unpackHeadChunkRef_pack _ hlt, or_mask_mod,
      mod_eq_of_lt hid', testBit_or_mask]

/-- If the IDs of a state are good in the state itself, they fit. -/
lemma idsFit_of_stable (hs : s.Inv) (h : Stable s s) : s.IDsFit := by
  intro isOOO n c hc
  obtain ⟨p, rfl, hp⟩ := Window.get?_eq_some_iff.1 hc
  cases isOOO with
  | false =>
    obtain ⟨ref, cid, r, href, hunpack, -⟩ := h.1 p c hp
    obtain ⟨hsr, hid, rfl⟩ := newHeadChunkRef_eq_some.1 href
    rw [unpackHeadChunkRef_pack _ hid, testBit_of_lt hid] at hunpack
    -- With bit 23 the ref would be one of the other space.
    have hbit : ¬ 2 ^ 23 ≤ s.headChunkID p := of_decide_eq_false (congrArg (·.2.2) hunpack)
    refine ⟨hsr, ?_⟩
    rw [Nat.add_comm]
    exact Nat.lt_of_not_le hbit
  | true =>
    cases ho : s.ooo with
    | none =>
      have hnil : (s.space true).items = [] := by simp [space, outOfOrder, ho]
      rw [hnil] at hp
      cases hp
    | some o =>
      have hfirst : (s.space true).first = o.firstOOOChunkID := by simp [space, outOfOrder, ho]
      obtain ⟨ref, cid, r, href, hunpack, hr, hres⟩ := h.2 o ho p c hp
      obtain ⟨hsr, hid, rfl⟩ := newHeadChunkRef_eq_some.1 href
      rw [MemSeriesOOOFields.oooHeadChunkID] at hid hunpack
      rw [unpackHeadChunkRef_pack _ hid, or_mask_mod] at hunpack
      obtain rfl : (p + o.firstOOOChunkID) % 2 ^ 23 = cid := congrArg (·.2.1) hunpack
      refine ⟨hsr, ?_⟩
      by_contra hge
      -- The upper bits of the number are lost, and what is left is the number of another chunk.
      have hne : (p + o.firstOOOChunkID) % 2 ^ 23 ≠ p + o.firstOOOChunkID := by
        have hle : 2 ^ 23 ≤ (s.space true).first + p := Nat.le_of_not_lt hge
        omega
      rw [chunkFromSeries_eq hs.toOnDisk (fun _ => by simp [ho])] at hr
      obtain rfl := Option.some.inj hr
      have hserial := hs.numbered true _ c hc
      rcases hres with ⟨c', hok, hgrows⟩ | ⟨-, hgone⟩
      · cases hget : (s.space true).get? ((p + o.firstOOOChunkID) % 2 ^ 23) with
        | none =>
          rw [hget] at hok
          cases hok
        | some c'' =>
          rw [hget] at hok
          cases hok
          have hserial' := hs.numbered true _ _ hget
          have hsame := hgrows.1
          omega
      · exact hgone c (Window.mem_items_iff.2 ⟨_, hc⟩) rfl

/-- After `ooo` was dropped, resolving an ID that was given before panics. -/
lemma not_dropsOOO_of_stable (hs : s.Counted)
    (h : Stable s (s.step toEncodedChunks op)) : ¬ s.DropsOOO op := by
  intro hdrop
  cases op with
  | truncateChunksBefore mint minOOOMmapRef =>
    obtain ⟨o, ho, hgone⟩ := hdrop
    have hooo : (s.truncateInOrder mint).ooo = some o := by
      rw [truncateInOrder, ← ho]
      split <;> rfl
    have hnone := (truncateOOO_eq_none_iff hooo minOOOMmapRef).2 hgone
    have hpos : 0 < s.outOfOrder.items.length := by
      simp only [outOfOrder, ho]
      rw [length_load (hs.ooo o ho)]
      exact length_pos_iff.2 hgone.2.1
    obtain ⟨ref, cid, r, -, -, hr, -⟩ := h.2 o ho 0 _ (getElem?_eq_getElem hpos)
    rw [chunkFromSeries, if_pos rfl, oooChunk, step, truncateChunksBefore, hnone] at hr
    cases hr
  | append | insert | mmapChunks | mmapCurrentOOOHeadChunk => exact hdrop

lemma run_append (s : SeriesChunks V) (ops ops' : List (Op V)) :
    s.run toEncodedChunks (ops ++ ops') = (s.run toEncodedChunks ops).run toEncodedChunks ops' := by
  simp only [run, foldl_append]

lemma run_concat (s : SeriesChunks V) (ops : List (Op V)) (op : Op V) :
    s.run toEncodedChunks (ops ++ [op]) = (s.run toEncodedChunks ops).step toEncodedChunks op := by
  simp only [run, foldl_append, foldl_cons, foldl_nil]

/-- A run that does not drop `ooo`. -/
lemma run_moves (hs : s.Inv) {ops : List (Op V)} (hops : ∀ before op, before ++ [op] <+: ops →
      ¬ (s.run toEncodedChunks before).DropsOOO op) :
    Moves s (s.run toEncodedChunks ops) := by
  induction ops using reverseRecOn with
  | nil => exact .refl hs.toCounted
  | append_singleton ops op ih =>
    have hmoves := ih fun before op' h => hops before op' (h.trans (prefix_append _ _))
    rw [run_concat]
    exact hmoves.trans (step_moves toEncodedChunks hmoves.counted op (hops ops op prefix_rfl))

/-- Chunk IDs are stable throughout a run of a new series if and only if at no time an ID exceeds 23
bits, and no truncation drops `ooo`. -/
theorem chunkIDs_stable_iff (ref : ℕ) (ops : List (Op V)) :
    (∀ before later, before <+: later → later <+: ops →
        Stable ((new ref).run toEncodedChunks before) ((new ref).run toEncodedChunks later)) ↔
      ∀ before, before <+: ops →
        ((new ref).run toEncodedChunks before).IDsFit ∧
          ∀ op, before ++ [op] <+: ops →
            ¬ ((new ref).run toEncodedChunks before).DropsOOO op := by
  constructor
  · intro hstable
    -- By induction on the part of the run so far, on which the invariant rests.
    have hinv : ∀ before, before <+: ops → ((new ref).run toEncodedChunks before).Inv := by
      intro before
      induction before using reverseRecOn with
      | nil => exact fun _ => inv_new ref
      | append_singleton before op ih =>
        intro hpre
        have hs := ih ((prefix_append _ _).trans hpre)
        have hstep := hstable before (before ++ [op]) (prefix_append _ _) hpre
        rw [run_concat] at hstep ⊢
        have hop := not_dropsOOO_of_stable toEncodedChunks hs.toCounted hstep
        exact (step_moves toEncodedChunks hs.toCounted op hop).inv hs
    intro before hpre
    refine ⟨idsFit_of_stable (hinv before hpre) (hstable before before prefix_rfl hpre), ?_⟩
    intro op hop
    have hstep := hstable before (before ++ [op]) (prefix_append _ _) hop
    rw [run_concat] at hstep
    exact not_dropsOOO_of_stable toEncodedChunks (hinv before hpre).toCounted hstep
  · rintro hgood before _ ⟨rest, rfl⟩ hpre
    have hdrops : ∀ before op, before ++ [op] <+: ops →
        ¬ ((new ref).run toEncodedChunks before).DropsOOO op :=
      fun before op h => (hgood before ((prefix_append _ _).trans h)).2 op h
    have hbefore : before <+: ops := (prefix_append _ _).trans hpre
    have hs := (run_moves toEncodedChunks (inv_new ref)
      fun p op h => hdrops p op (h.trans hbefore)).inv (inv_new ref)
    rw [run_append]
    refine stable_of_moves hs (run_moves toEncodedChunks hs fun p op h => ?_)
      (hgood before hbefore).1
    rw [← run_append]
    refine hdrops (before ++ p) op (List.IsPrefix.trans ?_ hpre)
    rw [append_assoc]
    exact (prefix_append_right_inj before).2 h

/-- An out-of-order chunk is written, and truncated later, which leaves nothing out of order. Then
the ID of the chunk panics. When the next chunk is written, the ID finds this one. -/
theorem oooChunkID_reused :
    let toEncodedChunks : List (ℤ × ℕ) → List (OOOHeadChunk ℕ) := fun samples =>
      [⟨samples, (samples.head?.map (·.1)).getD 0, (samples.getLast?.map (·.1)).getD 0⟩]
    let write (t : ℤ) : List (Op ℕ) := [.insert t 7 32, .mmapCurrentOOOHeadChunk]
    let s₁ := (new 1).run toEncodedChunks (write 5)
    let s₂ := s₁.run toEncodedChunks [.truncateChunksBefore 0 0]
    let s₃ := s₂.run toEncodedChunks (write 6)
    s₁.ooo.map (·.oooHeadChunkID 0) = some (0 ||| oooChunkIDMask) ∧
      s₁.chunkFromSeries 0 true = some (.ok ⟨0, [(5, 7)], 5, 5⟩) ∧
      s₂.chunkFromSeries 0 true = none ∧
      s₃.chunkFromSeries 0 true = some (.ok ⟨1, [(6, 7)], 6, 6⟩) ∧
      ¬ Stable s₁ s₂ ∧ ¬ Stable s₁ s₃ := by
  intro toEncodedChunks write s₁ s₂ s₃
  refine ⟨rfl, rfl, rfl, rfl, fun h => ?_, fun h => ?_⟩
  · obtain ⟨ref, cid, r, -, -, hr, -⟩ := h.2 ⟨[⟨0, 5, 5⟩], none, 0⟩ rfl 0 ⟨0, [(5, 7)], 5, 5⟩ rfl
    cases hr
  obtain ⟨ref, cid, r, href, hunpack, hr, hres⟩ :=
    h.2 ⟨[⟨0, 5, 5⟩], none, 0⟩ rfl 0 ⟨0, [(5, 7)], 5, 5⟩ rfl
  obtain ⟨-, hid, rfl⟩ := newHeadChunkRef_eq_some.1 href
  rw [unpackHeadChunkRef_pack _ hid, MemSeriesOOOFields.oooHeadChunkID, or_mask_mod] at hunpack
  obtain rfl : 0 = cid := congrArg (·.2.1) hunpack
  obtain rfl : Except.ok ⟨1, [(6, 7)], 6, 6⟩ = r := Option.some.inj hr
  rcases hres with ⟨c', hok, hgrows⟩ | ⟨hnot, -⟩
  · cases hok
    cases hgrows.1
  · cases hnot

end Prometheus.Tsdb.SeriesChunks
