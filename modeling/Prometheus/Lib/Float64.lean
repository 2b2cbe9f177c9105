import Mathlib

/-!
# Floating point numbers as bit patterns

The comparisons of `float64`s, and Go's `math.Ldexp`.

A number other than NaN is placed in the order by an integer, `ord`: its bit pattern without the
sign bit, with the sign. Comparisons are comparisons of these integers.
-/

namespace Float64

open Nat BitVec

/-- The bit pattern of `+Inf`. -/
def infBits : ℕ := 2047 * 2 ^ 52

def inf : BitVec 64 := BitVec.ofNat 64 infBits

/-- `math.MaxFloat64`. -/
def maxFloat64 : BitVec 64 := BitVec.ofNat 64 (infBits - 1)

def isNaN (x : BitVec 64) : Bool :=
  infBits < x.toNat % 2 ^ 63

def ord (x : BitVec 64) : ℤ :=
  if 2 ^ 63 ≤ x.toNat then -((x.toNat - 2 ^ 63 : ℕ) : ℤ) else x.toNat

variable (x y : BitVec 64)

/-- `x < y`. -/
def lt : Bool :=
  !isNaN x && !isNaN y && ord x < ord y

/-- `x <= y`. -/
def le : Bool :=
  !isNaN x && !isNaN y && ord x ≤ ord y

/-- `x == y`. -/
def eq : Bool :=
  !isNaN x && !isNaN y && ord x = ord y

/-- `-x`. -/
def neg (x : BitVec 64) : BitVec 64 :=
  BitVec.ofNat 64 (x.toNat + 2 ^ 63)

lemma neg_involutive : Function.Involutive neg := by
  intro x
  apply eq_of_toNat_eq
  simp only [neg, toNat_ofNat]
  omega

lemma isNaN_neg (x : BitVec 64) : isNaN (neg x) = isNaN x := by
  have h : (neg x).toNat % 2 ^ 63 = x.toNat % 2 ^ 63 := by
    rw [neg, toNat_ofNat]
    omega
  rw [isNaN, isNaN, h]

lemma ord_neg (x : BitVec 64) : ord (neg x) = -ord x := by
  have h : (neg x).toNat = (x.toNat + 2 ^ 63) % 2 ^ 64 := by
    rw [neg, toNat_ofNat]
  unfold ord
  rw [h]
  split_ifs <;> omega

variable {x : BitVec 64}

lemma ord_nonneg_iff (h : x.toNat < 2 ^ 63) : ord x = x.toNat :=
  if_neg (by omega)

/-! ### Rounding -/

variable (n d : ℕ)

/-- `n / d`, rounded to the nearest integer and to the even one of two. -/
def roundEven : ℕ :=
  if 2 * (n % d) < d then n / d
  else if d < 2 * (n % d) then n / d + 1
  else n / d + n / d % 2

lemma div_le_roundEven : n / d ≤ roundEven n d := by
  unfold roundEven
  split_ifs <;> omega

lemma roundEven_le : roundEven n d ≤ n / d + 1 := by
  unfold roundEven
  split_ifs <;> omega

lemma roundEven_mono {n n' d : ℕ} (h : n ≤ n') : roundEven n d ≤ roundEven n' d := by
  rcases (Nat.div_le_div_right h : n / d ≤ n' / d).eq_or_lt with heq | hlt
  · -- Between the same two integers, the remainder decides.
    have hmod : n % d ≤ n' % d := by
      have h₁ := div_add_mod n d
      have h₂ := div_add_mod n' d
      rw [heq] at h₁
      omega
    unfold roundEven
    rw [heq]
    split_ifs <;> omega
  · exact (roundEven_le n d).trans (hlt.trans_le (div_le_roundEven n' d))

lemma roundEven_mul_right {k : ℕ} (hk : 0 < k) (n d : ℕ) :
    roundEven (n * k) (d * k) = roundEven n d := by
  have hdiv : n * k / (d * k) = n / d := Nat.mul_div_mul_right n d hk
  have hmod : n * k % (d * k) = n % d * k := Nat.mul_mod_mul_right k n d
  have hlt : 2 * (n % d * k) < d * k ↔ 2 * (n % d) < d := by
    rw [← Nat.mul_assoc]
    exact Nat.mul_lt_mul_right hk
  have hgt : d * k < 2 * (n % d * k) ↔ d < 2 * (n % d) := by
    rw [← Nat.mul_assoc]
    exact Nat.mul_lt_mul_right hk
  simp only [roundEven, hdiv, hmod, hlt, hgt]

lemma roundEven_mul_self {d : ℕ} (hd : 0 < d) (q : ℕ) : roundEven (q * d) d = q := by
  have hmod : q * d % d = 0 := Nat.mul_mod_left q d
  rw [roundEven, hmod, Nat.mul_div_cancel q hd, if_pos (by omega)]

/-! ### `math.Ldexp` -/

/-- The significands of normal numbers: 53 bits, the first one set. -/
def Significand (m : ℕ) : Prop := 2 ^ 52 ≤ m ∧ m < 2 ^ 53

/-- The bit pattern of `m * 2 ^ (e - 52)`. -/
def scale (m : ℕ) (e : ℤ) : ℕ :=
  if e < -1075 then 0
  else if e > 1023 then infBits
  else if e < -1022 then roundEven m (2 ^ (-1022 - e).toNat)
  else (e + 1023).toNat * 2 ^ 52 + (m - 2 ^ 52)

/-- `math.Ldexp(frac, exp)` for the `frac` between 0.5 and 1 with the significand `m`. -/
def ldexp (m : ℕ) (exp : ℤ) : BitVec 64 :=
  BitVec.ofNat 64 (scale m (exp - 1))

variable {m m' : ℕ} {e e' : ℤ}

lemma scale_subnormal (h : -1075 ≤ e) (h' : e < -1022) :
    scale m e = roundEven m (2 ^ (-1022 - e).toNat) := by
  rw [scale, if_neg (by omega), if_neg (by omega), if_pos h']

lemma scale_normal (h : -1022 ≤ e) (h' : e ≤ 1023) :
    scale m e = (e + 1023).toNat * 2 ^ 52 + (m - 2 ^ 52) := by
  rw [scale, if_neg (by omega), if_neg (by omega), if_neg (by omega)]

/-- A subnormal number is at most the least normal one. -/
lemma scale_subnormal_le (h : Significand m) (he : -1075 ≤ e) (he' : e < -1022) :
    scale m e ≤ 2 ^ 52 := by
  obtain ⟨k, hk⟩ : ∃ k : ℕ, (-1022 - e).toNat = 1 + k := ⟨(-1022 - e).toNat - 1, by omega⟩
  rw [scale_subnormal he he', hk]
  calc roundEven m (2 ^ (1 + k)) ≤ roundEven (2 ^ 52 * 2 ^ (1 + k)) (2 ^ (1 + k)) := by
        refine roundEven_mono ?_
        have hlt := h.2
        have hone := Nat.one_le_two_pow (n := k)
        rw [pow_add]
        nlinarith
    _ = 2 ^ 52 := roundEven_mul_self (Nat.two_pow_pos _) _

/-- Finite results are below `+Inf`. -/
lemma scale_lt_infBits (h : Significand m) (he : e ≤ 1023) : scale m e < infBits := by
  unfold infBits
  by_cases hzero : e < -1075
  · rw [scale, if_pos hzero]
    omega
  by_cases hsub : e < -1022
  · have := scale_subnormal_le h (by omega) hsub
    omega
  obtain ⟨hlo, hhi⟩ := h
  rw [scale_normal (by omega) he]
  omega

lemma scale_of_gt (he : 1023 < e) : scale m e = infBits := by
  rw [scale, if_neg (by omega), if_pos he]

lemma scale_le_infBits (h : Significand m) : scale m e ≤ infBits := by
  by_cases he : e ≤ 1023
  · exact (scale_lt_infBits h he).le
  · exact (scale_of_gt (by omega)).le

/-- The order of the exponents, and of the significands for one exponent. -/
lemma scale_mono (h : Significand m) (h' : Significand m')
    (hle : e < e' ∨ e = e' ∧ m ≤ m') : scale m e ≤ scale m' e' := by
  by_cases hsmall : e < -1075
  · rw [scale, if_pos hsmall]
    exact Nat.zero_le _
  by_cases hbig : 1023 < e'
  · exact scale_of_gt hbig ▸ scale_le_infBits h
  by_cases hsub : e < -1022
  · by_cases hsub' : e' < -1022
    · -- Two subnormal numbers, in units of the smaller one.
      rw [scale_subnormal (by omega) hsub, scale_subnormal (by omega) hsub']
      obtain ⟨k, hk⟩ : ∃ k : ℕ, (-1022 - e).toNat = (-1022 - e').toNat + k :=
        ⟨(e' - e).toNat, by omega⟩
      rw [hk, pow_add, ← roundEven_mul_right (Nat.two_pow_pos k) m']
      refine roundEven_mono ?_
      rcases hle with hlt | ⟨rfl, hm⟩
      · have hk1 : 2 ^ 1 ≤ 2 ^ k := Nat.pow_le_pow_right (by omega) (by omega)
        calc m ≤ 2 ^ 52 * 2 ^ 1 := h.2.le
          _ ≤ m' * 2 ^ k := Nat.mul_le_mul h'.1 hk1
      · exact hm.trans (Nat.le_mul_of_pos_right m' (Nat.two_pow_pos k))
    · refine (scale_subnormal_le h (by omega) hsub).trans ?_
      rw [scale_normal (by omega) (by omega)]
      omega
  · obtain ⟨hlo, hhi⟩ := h
    obtain ⟨hlo', hhi'⟩ := h'
    rw [scale_normal (by omega) (by omega), scale_normal (by omega) (by omega)]
    omega

lemma toNat_ldexp (h : Significand m) (exp : ℤ) : (ldexp m exp).toNat = scale m (exp - 1) := by
  have hle := scale_le_infBits (e := exp - 1) h
  rw [ldexp, toNat_ofNat, mod_eq_of_lt]
  unfold infBits at hle
  omega

/-- A bit pattern from `+0` to `+Inf`. -/
def IsNonneg (x : BitVec 64) : Prop := x.toNat ≤ infBits

lemma IsNonneg.ord_eq (h : IsNonneg x) : ord x = x.toNat := by
  refine ord_nonneg_iff ?_
  unfold IsNonneg infBits at h
  omega

lemma IsNonneg.not_isNaN (h : IsNonneg x) : isNaN x = false := by
  unfold IsNonneg at h
  rw [isNaN, decide_eq_false_iff_not, not_lt]
  exact (mod_le _ _).trans h

/-! ### Quotients of naturals -/

/-- The number nearest to `n / d`, if that is zero or a normal number. -/
def ofRatio (n d : ℕ) : BitVec 64 :=
  if n = 0 then 0
  else
    -- The exponent of the first bit of the quotient is the difference of the exponents, or one
    -- less.
    let e : ℤ := (Nat.log2 n : ℤ) - Nat.log2 d
    let e := if n * 2 ^ (-e).toNat < d * 2 ^ e.toNat then e - 1 else e
    BitVec.ofNat 64 (scale (roundEven (n * 2 ^ (52 - e).toNat) (d * 2 ^ (e - 52).toNat)) e)

/-- `float64(n)` for an unsigned integer. -/
def ofNat (n : ℕ) : BitVec 64 :=
  ofRatio n 1

/-- `x / y`, where both are `+0` or positive normal numbers. -/
def div (x y : BitVec 64) : BitVec 64 :=
  if y = 0 then if x = 0 then BitVec.ofNat 64 (infBits + 1) else inf
  else if x = 0 then 0
  else
    -- `x` is a significand of 53 bits times a power of two.
    let significand (x : BitVec 64) : ℕ := 2 ^ 52 + x.toNat % 2 ^ 52
    let e : ℤ := (x.toNat / 2 ^ 52 : ℕ) - (y.toNat / 2 ^ 52 : ℕ)
    ofRatio (significand x * 2 ^ e.toNat) (significand y * 2 ^ (-e).toNat)

example : div (ofNat 1) (ofNat 20) = 0x3FA999999999999A := by decide +kernel

end Float64
