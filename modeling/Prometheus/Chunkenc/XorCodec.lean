import Prometheus.Chunkenc.Bstream

/-!
# The shared codecs: size prefixes, signed fields and xor-encoded floats

What the chunk formats have in common (`tsdb/chunkenc/xor.go`, used again by `varbit.go`,
`histogram.go` and `float_histogram.go`):

* `readPrefixCode`: a run of ones, ended by a zero or by the maximal length, that selects the size
  of the field behind it;
* `bitRange` and `signedOf`: two's complement in `sz` bits over the asymmetric range
  `-(2^(sz-1) - 1) .. 2^(sz-1)`;
* `xorWrite` and `xorRead`: the Gorilla encoding of a float as the xor with its predecessor, with
  the window of significant bits kept from one value to the next.

The window is the delicate part. A fresh appender starts with the marker `0xff`, an iterator, and
hence an appender rebuilt from one, with `(0, 0)`; `WindowSync` is what the two sides need to agree
on, and `xor_roundTrip` says that a write under it is undone by the read and keeps it.
-/

namespace Prometheus.Chunkenc

open BitList BitVec Reads Nat

/-! ### Size prefixes -/

/-- The loop over at most `n` prefix bits: shift, read a bit, stop at a zero. -/
def readPrefixCode : ℕ → BitVec 8 → Rd (BitVec 8)
  | 0, d => return d
  | n + 1, d => do
    let d := d <<< 1
    if ← BStreamReader.readBitFastFirst then readPrefixCode n (d ||| 1) else return d

lemma reads_readBitFastFirst (b : Bool) : Reads BStreamReader.readBitFastFirst [b] b := by
  rw [readBitFastFirst_eq]
  exact reads_readBit b

lemma reads_readBitsFastFirst {n : BitVec 8} (hpos : 0 < n.toNat) (hn : n.toNat ≤ 64)
    (x : BitVec 64) (hx : x.toNat < 2 ^ n.toNat) :
    Reads (BStreamReader.readBitsFastFirst n) (bitsOf n.toNat x.toNat) x := by
  rw [readBitsFastFirst_eq n hpos]
  exact reads_readBits hpos hn x hx

lemma reads_prefix_end (d : BitVec 8) : Reads (readPrefixCode 0 d) [] d :=
  pure d

lemma reads_prefix_false (n : ℕ) (d : BitVec 8) :
    Reads (readPrefixCode (n + 1) d) [false] (d <<< 1) :=
  bind (reads_readBitFastFirst false) (pure (d <<< 1))

lemma reads_prefix_true {n : ℕ} {d c : BitVec 8} {l : List Bool}
    (h : Reads (readPrefixCode n (d <<< 1 ||| 1)) l c) :
    Reads (readPrefixCode (n + 1) d) (true :: l) c :=
  bind (reads_readBitFastFirst true) h

/-! ### Signed fields -/

/-- Whether the given integer can be represented by `nbits`. -/
def bitRange (x : BitVec 64) (nbits : ℕ) : Bool :=
  -(2 ^ (nbits - 1) - 1 : ℤ) ≤ x.toInt ∧ x.toInt ≤ 2 ^ (nbits - 1)

/-- Negative numbers come back as high unsigned numbers. -/
def signedOf (sz : ℕ) (bits : BitVec 64) : BitVec 64 :=
  if bits > (1 : BitVec 64) <<< (sz - 1) then bits - (1 : BitVec 64) <<< sz else bits

/-- The word a field of `sz` bits carries. -/
def fieldOf (sz : ℕ) (x : BitVec 64) : BitVec 64 :=
  BitVec.ofNat 64 (x.toNat % 2 ^ sz)

variable {sz : ℕ}

lemma toNat_fieldOf (x : BitVec 64) : (fieldOf sz x).toNat = x.toNat % 2 ^ sz := by
  rw [fieldOf, toNat_ofNat, mod_eq_of_lt ((mod_le _ _).trans_lt x.isLt)]

lemma toNat_one_shiftLeft {k : ℕ} (hk : k < 64) : ((1 : BitVec 64) <<< k).toNat = 2 ^ k :=
  toNat_twoPow_of_lt hk

/-- A number in the range of `sz` bits survives truncation to `sz` bits. -/
lemma signedOf_fieldOf (hpos : 0 < sz) (hsz : sz < 64) {x : BitVec 64}
    (hx : bitRange x sz = true) : signedOf sz (fieldOf sz x) = x := by
  have hrange : -(2 ^ (sz - 1) - 1 : ℤ) ≤ x.toInt ∧ x.toInt ≤ 2 ^ (sz - 1) := by
    simpa [bitRange] using hx
  obtain ⟨hlo, hhi⟩ := hrange
  obtain ⟨k, rfl⟩ : ∃ k, sz = k + 1 := ⟨sz - 1, by omega⟩
  rw [Nat.add_sub_cancel] at hlo hhi
  have hfield := @toNat_fieldOf (k + 1) x
  -- in terms of `2 ^ (k + 1)` and its cofactor in `2 ^ 64` everything is linear
  obtain ⟨c, hc⟩ : ∃ c, 2 ^ 64 = 2 ^ (k + 1) * c := ⟨2 ^ (64 - (k + 1)), by
    rw [← pow_add]; congr 1; omega⟩
  have hpow64 : 2 ^ (k + 1) < 2 ^ 64 := Nat.pow_lt_pow_right (by omega) hsz
  have hcast : ((2 ^ k : ℕ) : ℤ) = 2 ^ k := by push_cast; rfl
  rw [← hcast] at hlo hhi
  have hgt : fieldOf (k + 1) x > (1 : BitVec 64) <<< (k + 1 - 1)
      ↔ 2 ^ k < x.toNat % 2 ^ (k + 1) := by
    rw [gt_iff_lt, lt_def, hfield, Nat.add_sub_cancel, toNat_one_shiftLeft (by omega)]
  unfold signedOf
  by_cases hneg : 2 * x.toNat < 2 ^ 64
  · have hint : x.toInt = x.toNat := toInt_eq_toNat_of_lt hneg
    have hmod : x.toNat % 2 ^ (k + 1) = x.toNat := mod_eq_of_lt (by omega)
    rw [if_neg (by rw [hgt]; omega)]
    apply eq_of_toNat_eq
    rw [hfield, hmod]
  have hint : x.toInt = x.toNat - (2 ^ 64 : ℕ) := by
    rw [toInt_eq_toNat_cond, if_neg hneg]
  have hmod : x.toNat % 2 ^ (k + 1) = x.toNat + 2 ^ (k + 1) - 2 ^ 64 := by
    have hsplit : x.toNat = (x.toNat + 2 ^ (k + 1) - 2 ^ 64) + 2 ^ (k + 1) * (c - 1) := by
      rw [Nat.mul_sub, ← hc]
      omega
    conv_lhs => rw [hsplit]
    rw [add_mul_mod_self_left, mod_eq_of_lt (by omega)]
  rw [if_pos (by rw [hgt]; omega)]
  apply eq_of_toNat_eq
  rw [toNat_sub, hfield, hmod, toNat_one_shiftLeft hsz]
  omega

/-- A field of `sz` bits is written from the whole word and read back as its truncation. -/
lemma appends_field (x : BitVec 64) (hsz : sz ≤ 64) :
    Appends (·.writeBits x sz) (bitsOf sz (fieldOf sz x).toNat) := by
  rw [toNat_fieldOf, bitsOf_mod (le_refl sz)]
  exact appends_writeBits x hsz

lemma reads_field {n : BitVec 8} (hpos : 0 < n.toNat) (hn : n.toNat ≤ 64) (x : BitVec 64) :
    Reads (BStreamReader.readBitsFastFirst n) (bitsOf n.toNat x.toNat) (fieldOf n.toNat x) := by
  have hread := reads_readBitsFastFirst hpos hn (fieldOf n.toNat x) (by
    rw [toNat_fieldOf]
    exact mod_lt _ (by positivity))
  rwa [toNat_fieldOf, bitsOf_mod (le_refl _)] at hread

/-! ### Xor-encoded floats

Floats are their 64-bit patterns. -/

/-- `bits.LeadingZeros64`. -/
def leadingZeros64 (x : BitVec 64) : ℕ :=
  64 - x.toNat.size

/-- `bits.TrailingZeros64`. -/
def trailingZeros64 (x : BitVec 64) : ℕ :=
  ((List.range 64).find? fun i => x.toNat.testBit i).getD 64

/-- The window of significant bits: how many bits are left out at either end. `leading = 0xff`
marks that there is none yet. -/
structure Window where
  leading : BitVec 8
  trailing : BitVec 8
  deriving DecidableEq, Repr

/-- Write `newValue` as its difference to `currentValue`; the window may change. -/
def xorWrite (b : BStream) (newValue currentValue : BitVec 64) (w : Window) : BStream × Window :=
  let delta := newValue ^^^ currentValue
  if delta = 0 then (b.writeBit false, w)
  else
    let b := b.writeBit true
    let newLeading := BitVec.ofNat 8 (leadingZeros64 delta)
    let newTrailing := BitVec.ofNat 8 (trailingZeros64 delta)
    -- Clamp number of leading zeros to avoid overflow when encoding.
    let newLeading := if newLeading ≥ 32 then 31 else newLeading
    if w.leading ≠ 0xff ∧ newLeading ≥ w.leading ∧ newTrailing ≥ w.trailing then
      -- Stick with the current window.
      let b := b.writeBit false
      (b.writeBits (delta >>> w.trailing.toNat) (64 - w.leading.toNat - w.trailing.toNat), w)
    else
      let b := b.writeBit true
      let b := b.writeBits (newLeading.setWidth 64) 5
      -- 64 significant bits do not fit into the 6 bits and are written as 0.
      let sigbits := 64 - newLeading - newTrailing
      let b := b.writeBits (sigbits.setWidth 64) 6
      (b.writeBits (delta >>> newTrailing.toNat) sigbits.toNat, ⟨newLeading, newTrailing⟩)

/-- The significant bits in the window `w`, xor-ed into the current value. -/
def xorReadBits (value : BitVec 64) (w : Window) (mbits : BitVec 8) : Rd (BitVec 64 × Window) := do
  let bits ← BStreamReader.readBitsFastFirst mbits
  return (value ^^^ bits <<< w.trailing.toNat, w)

/-- Read the successor of `value`. On failure the source may already have moved the window; the
iterators never read it again after an error. -/
def xorRead (value : BitVec 64) (w : Window) : Rd (BitVec 64 × Window) := do
  if ← BStreamReader.readBitFastFirst then
    if ← BStreamReader.readBitFastFirst then
      let bits ← BStreamReader.readBitsFastFirst 5
      let newLeading : BitVec 8 := bits.setWidth 8
      let bits ← BStreamReader.readBitsFastFirst 6
      let mbits : BitVec 8 := bits.setWidth 8
      -- 0 significant bits means we overflowed and we actually need 64.
      let mbits := if mbits = 0 then 64 else mbits
      xorReadBits value ⟨newLeading, 64 - newLeading - mbits⟩ mbits
    else
      -- Reuse leading/trailing zero bits.
      xorReadBits value w (64 - w.leading - w.trailing)
  else return (value, w)

/-- A window that leaves at least one significant bit. -/
def Window.Valid (w : Window) : Prop :=
  w.leading.toNat + w.trailing.toNat < 64

/-- What the writer's window `wa` and the reader's window `wi` need to agree on: they are the same,
unless the writer has none yet. -/
structure WindowSync (wa wi : Window) : Prop where
  valid : wi.Valid
  agree : wa.leading = 0xff ∨ wa = wi

/-- A fresh appender and a fresh iterator. -/
lemma WindowSync.fresh : WindowSync ⟨0xff, 0⟩ ⟨0, 0⟩ :=
  ⟨by simp [Window.Valid], Or.inl rfl⟩

variable {w : Window}

/-- An appender rebuilt from an iterator. -/
lemma WindowSync.refl (h : w.Valid) : WindowSync w w :=
  ⟨h, Or.inr rfl⟩

/-- All bits of `delta` outside the window are zero. -/
structure Window.Fits (w : Window) (delta : BitVec 64) : Prop where
  lt : delta.toNat < 2 ^ (64 - w.leading.toNat)
  dvd : 2 ^ w.trailing.toNat ∣ delta.toNat

variable {delta : BitVec 64}

lemma Window.Fits.mono {w' : Window} (h : w.Fits delta)
    (hl : w'.leading.toNat ≤ w.leading.toNat) (ht : w'.trailing.toNat ≤ w.trailing.toNat) :
    w'.Fits delta where
  lt := lt_of_lt_of_le h.lt (Nat.pow_le_pow_right (by omega) (by omega))
  dvd := dvd_trans (pow_dvd_pow 2 ht) h.dvd

/-- The zeros counted at either end of a non-zero word leave at least one bit. -/
lemma zeros64_spec (h : delta ≠ 0) :
    delta.toNat < 2 ^ (64 - leadingZeros64 delta) ∧ 2 ^ trailingZeros64 delta ∣ delta.toNat ∧
      leadingZeros64 delta + trailingZeros64 delta < 64 := by
  have hne : delta.toNat ≠ 0 := fun h0 => h (eq_of_toNat_eq h0)
  have hsize : delta.toNat.size ≤ 64 := Nat.size_le.2 delta.isLt
  -- the lowest set bit
  obtain ⟨i, hi, hlow⟩ : ∃ i, delta.toNat.testBit i = true ∧
      ∀ j < i, delta.toNat.testBit j = false := by
    have hex : ∃ i, delta.toNat.testBit i = true := Nat.exists_testBit_of_ne_zero hne
    refine ⟨Nat.find hex, Nat.find_spec hex, fun j hj => ?_⟩
    simpa using Nat.find_min hex hj
  have hilt : i < delta.toNat.size := Nat.lt_size.2 (Nat.ge_two_pow_of_testBit hi)
  have htz : trailingZeros64 delta = i := by
    unfold trailingZeros64
    rw [List.find?_range_eq_some.2 ⟨hi, by simp; omega, fun j hj => by simp [hlow j hj]⟩]
    rfl
  have hdvd : 2 ^ i ∣ delta.toNat := by
    rw [Nat.dvd_iff_mod_eq_zero]
    apply Nat.eq_of_testBit_eq
    intro j
    rw [Nat.testBit_mod_two_pow, Nat.zero_testBit]
    by_cases hj : j < i
    · simp [hlow j hj]
    · simp [hj]
  refine ⟨?_, by rwa [htz], ?_⟩
  · unfold leadingZeros64
    rw [Nat.sub_sub_self hsize]
    exact Nat.lt_size_self _
  · unfold leadingZeros64
    omega

/-- The significant bits of a difference that fits the window. -/
def windowBits (w : Window) (delta : BitVec 64) : List Bool :=
  bitsOf (64 - w.leading.toNat - w.trailing.toNat) (delta >>> w.trailing.toNat).toNat

private lemma toNat_mbits (h : w.Valid) :
    (64 - w.leading - w.trailing : BitVec 8).toNat = 64 - w.leading.toNat - w.trailing.toNat := by
  unfold Window.Valid at h
  have h1 : (64 - w.leading : BitVec 8).toNat = 64 - w.leading.toNat :=
    toNat_sub_of_le (show w.leading.toNat ≤ 64 by omega)
  rw [toNat_sub_of_le (by rw [le_def, h1]; omega), h1]

lemma reads_xorReadBits (hw : w.Valid) (hfit : w.Fits delta) (value : BitVec 64) :
    Reads (xorReadBits value w (64 - w.leading - w.trailing)) (windowBits w delta)
      (value ^^^ delta, w) := by
  have hm := toNat_mbits hw
  unfold Window.Valid at hw
  have hshift : (delta >>> w.trailing.toNat).toNat = delta.toNat / 2 ^ w.trailing.toNat := by
    rw [toNat_ushiftRight, shiftRight_eq_div_pow]
  have hlt : (delta >>> w.trailing.toNat).toNat <
    2 ^ (64 - w.leading.toNat - w.trailing.toNat) := by
    rw [hshift, Nat.div_lt_iff_lt_mul (by positivity), ← pow_add, Nat.sub_add_cancel (by omega)]
    exact hfit.lt
  have hback : (delta >>> w.trailing.toNat) <<< w.trailing.toNat = delta := by
    apply eq_of_toNat_eq
    rw [toNat_shiftLeft, hshift, Nat.shiftLeft_eq, Nat.div_mul_cancel hfit.dvd,
      Nat.mod_eq_of_lt delta.isLt]
  have hread := reads_readBitsFastFirst (n := 64 - w.leading - w.trailing) (by omega) (by omega)
    (delta >>> w.trailing.toNat) (by rw [hm]; exact hlt)
  rw [hm] at hread
  have := hread.map fun bits => (value ^^^ bits <<< w.trailing.toNat, w)
  simp only [hback] at this
  exact this

/-- The window the writer cuts for a non-zero difference. -/
def newWindow (delta : BitVec 64) : Window :=
  let newLeading := BitVec.ofNat 8 (leadingZeros64 delta)
  ⟨if newLeading ≥ 32 then 31 else newLeading, BitVec.ofNat 8 (trailingZeros64 delta)⟩

lemma newWindow_spec (h : delta ≠ 0) :
    (newWindow delta).Valid ∧ (newWindow delta).Fits delta ∧
      (newWindow delta).leading.toNat < 32 := by
  obtain ⟨hlt, hdvd, hsum⟩ := zeros64_spec h
  have hl : (BitVec.ofNat 8 (leadingZeros64 delta)).toNat = leadingZeros64 delta := by
    rw [toNat_ofNat, mod_eq_of_lt (by omega)]
  have ht : (newWindow delta).trailing.toNat = trailingZeros64 delta := by
    change (BitVec.ofNat 8 (trailingZeros64 delta)).toNat = _
    rw [toNat_ofNat, mod_eq_of_lt (by omega)]
  have hlead : (newWindow delta).leading.toNat = min 31 (leadingZeros64 delta) := by
    unfold newWindow
    simp only [ge_iff_le, le_def, hl]
    by_cases h32 : (32 : BitVec 8).toNat ≤ leadingZeros64 delta
    · rw [if_pos h32]
      simp at h32 ⊢
      omega
    rw [if_neg h32, hl]
    simp at h32
    omega
  refine ⟨?_, ⟨?_, by rwa [ht]⟩, by omega⟩
  · unfold Window.Valid
    omega
  · rw [hlead]
    exact lt_of_lt_of_le hlt (Nat.pow_le_pow_right (by omega) (by omega))

private lemma leading_back : ∀ leading : BitVec 8, leading.toNat < 32 →
    (fieldOf 5 (leading.setWidth 64)).setWidth 8 = leading := by
  decide

/-- Six bits lose the number 64, which comes back as 0. -/
private lemma sigbits_back : ∀ sig : BitVec 8, 0 < sig.toNat → sig.toNat ≤ 64 →
    (if (fieldOf 6 (sig.setWidth 64)).setWidth 8 = (0 : BitVec 8) then 64
      else (fieldOf 6 (sig.setWidth 64)).setWidth 8) = sig := by
  decide

/-- A new window is announced by its leading zeros and its number of significant bits. -/
private lemma reads_newWindow (hw : w.Valid) (hlead : w.leading.toNat < 32)
    {delta : BitVec 64} (hfit : w.Fits delta) (value : BitVec 64) (wi : Window) :
    Reads (xorRead value wi)
      ([true] ++ ([true] ++ (bitsOf 5 (w.leading.setWidth 64 : BitVec 64).toNat
        ++ (bitsOf 6 ((64 - w.leading - w.trailing : BitVec 8).setWidth 64 : BitVec 64).toNat
          ++ windowBits w delta))))
      (value ^^^ delta, w) := by
  have hm := toNat_mbits hw
  have hv := hw
  unfold Window.Valid at hv
  set sig : BitVec 8 := 64 - w.leading - w.trailing with hsig
  have htrail : 64 - w.leading - sig = w.trailing := by
    rw [hsig]
    bv_omega
  have hread5 := reads_field (n := 5) (by decide) (by decide) (w.leading.setWidth 64)
  have hread6 := reads_field (n := 6) (by decide) (by decide) (sig.setWidth 64)
  refine bind (reads_readBitFastFirst true) (bind (reads_readBitFastFirst true)
    (bind hread5 (bind hread6 ?_)))
  have hlback := leading_back w.leading hlead
  have hsback := sigbits_back sig (by omega) (by omega)
  simp only [show (5 : BitVec 8).toNat = 5 from rfl, show (6 : BitVec 8).toNat = 6 from rfl, hlback,
    hsback, htrail]
  exact reads_xorReadBits hw hfit value

/-- **A xor-encoded value decodes to itself.** What is written does not depend on the stream, the
reader finds the new value, and the windows stay in agreement. -/
theorem xor_roundTrip (new cur : BitVec 64) {wa wi : Window} (h : WindowSync wa wi) :
    ∃ l wa' wi', (∀ b, (xorWrite b new cur wa).2 = wa') ∧
      Appends (fun b => (xorWrite b new cur wa).1) l ∧
      Reads (xorRead cur wi) l (new, wi') ∧ WindowSync wa' wi' := by
  set delta := new ^^^ cur with hdelta
  have hnew : cur ^^^ delta = new := by
    rw [hdelta, BitVec.xor_comm new, ← BitVec.xor_assoc, BitVec.xor_self, BitVec.zero_xor]
  by_cases h0 : delta = 0
  · -- the same value: one bit
    refine ⟨[false], wa, wi, fun b => ?_, ?_, ?_, h⟩
    · simp only [xorWrite, ← hdelta, if_pos h0]
    · simp only [xorWrite, ← hdelta, if_pos h0]
      exact appends_writeBit false
    have hcur : new = cur := by
      rw [← hnew, h0]
      exact BitVec.xor_zero
    rw [hcur]
    exact bind (reads_readBitFastFirst false) (pure (cur, wi))
  obtain ⟨hvalid, hfits, hlead⟩ := newWindow_spec h0
  by_cases hreuse : wa.leading ≠ 0xff ∧ (newWindow delta).leading ≥ wa.leading ∧
      (newWindow delta).trailing ≥ wa.trailing
  · -- the current window is wide enough
    have hwrite : ∀ b, xorWrite b new cur wa = ((((b.writeBit true).writeBit false).writeBits
        (delta >>> wa.trailing.toNat) (64 - wa.leading.toNat - wa.trailing.toNat)), wa) := by
      intro b
      simp only [xorWrite, ← hdelta, if_neg h0]
      exact if_pos hreuse
    obtain ⟨hff, hge_l, hge_t⟩ := hreuse
    obtain rfl : wa = wi := h.agree.resolve_left hff
    refine ⟨[true] ++ ([false] ++ windowBits wa delta), wa, wa, fun b => by rw [hwrite], ?_, ?_, h⟩
    · simp only [hwrite]
      exact (appends_writeBit true).comp
        ((appends_writeBit false).comp (appends_writeBits _ (by omega)))
    rw [← hnew]
    exact bind (reads_readBitFastFirst true) (bind (reads_readBitFastFirst false)
      (reads_xorReadBits h.valid (hfits.mono hge_l hge_t) cur))
  -- a new window
  have hwrite : ∀ b, xorWrite b new cur wa
      = ((((((b.writeBit true).writeBit true).writeBits
          ((newWindow delta).leading.setWidth 64) 5).writeBits
          ((64 - (newWindow delta).leading - (newWindow delta).trailing).setWidth 64) 6).writeBits
          (delta >>> (newWindow delta).trailing.toNat)
          (64 - (newWindow delta).leading - (newWindow delta).trailing).toNat),
        newWindow delta) := by
    intro b
    simp only [xorWrite, ← hdelta, if_neg h0]
    exact if_neg hreuse
  refine ⟨_, newWindow delta, newWindow delta, fun b => by rw [hwrite], ?_,
    hnew ▸ reads_newWindow hvalid hlead hfits cur wi, WindowSync.refl hvalid⟩
  simp only [hwrite]
  have hlast : Appends (·.writeBits (delta >>> (newWindow delta).trailing.toNat)
      (64 - (newWindow delta).leading - (newWindow delta).trailing).toNat)
      (windowBits (newWindow delta) delta) := by
    rw [toNat_mbits hvalid]
    exact appends_writeBits _ (by omega)
  exact (appends_writeBit true).comp ((appends_writeBit true).comp
    ((appends_writeBits _ (by omega)).comp ((appends_writeBits _ (by omega)).comp hlast)))

end Prometheus.Chunkenc
