import Mathlib

/-!
# Most-significant-first bit lists

The common currency of the bit-stream proofs: a finite bit string is a `List Bool`, read from the
most significant bit down, and

* `bitsOf n x` is the string of the `n` low bits of `x`;
* `ofBits l` is the number a string denotes;
* `bytesBits bs` is the string of a byte sequence.

Reading a string back gives the number up to truncation (`ofBits_bitsOf`), the bits of a byte
sequence are those of the number it denotes (`bitsOf_ofBytes`), and `bitsOf_append` is the one
splitting rule every field boundary is cut with.
-/

namespace BitList

open List Nat

/-- The `n` low bits of `x`, most significant first. -/
def bitsOf : ℕ → ℕ → List Bool
  | 0, _ => []
  | n + 1, x => x.testBit n :: bitsOf n x

variable (l : List Bool)

/-- The number a most-significant-first bit string denotes. -/
def ofBits : ℕ :=
  l.foldl (fun acc b => 2 * acc + b.toNat) 0

variable (bs : List (BitVec 8))

/-- The bits of a byte sequence. -/
def bytesBits : List Bool :=
  bs.flatMap fun b => bitsOf 8 b.toNat

/-- The number a byte sequence denotes, most significant byte first. -/
def ofBytes : ℕ :=
  bs.foldl (fun acc b => 256 * acc + b.toNat) 0

/-! ### Length and truncation -/

@[simp] lemma bitsOf_zero (x : ℕ) : bitsOf 0 x = [] := rfl

variable (n x : ℕ)

lemma bitsOf_succ : bitsOf (n + 1) x = x.testBit n :: bitsOf n x := rfl

@[simp] lemma length_bitsOf : (bitsOf n x).length = n := by
  induction n with
  | zero => rfl
  | succ n ih => rw [bitsOf_succ, length_cons, ih]

/-- Two numbers with the same bits below `n` have the same `n`-bit string. -/
lemma bitsOf_congr {n x y : ℕ} (h : ∀ i < n, x.testBit i = y.testBit i) :
    bitsOf n x = bitsOf n y := by
  induction n with
  | zero => rfl
  | succ n ih =>
    rw [bitsOf_succ, bitsOf_succ, h n (lt_succ_self n), ih fun i hi => h i (by omega)]

lemma bitsOf_mod {n m : ℕ} (h : n ≤ m) (x : ℕ) : bitsOf n (x % 2 ^ m) = bitsOf n x := by
  refine bitsOf_congr fun i hi => ?_
  rw [testBit_mod_two_pow]
  simp [show i < m by omega]

/-- **The splitting rule.** The high `m` of `m + n` bits are the `m` bits of the quotient. -/
theorem bitsOf_append (m n x : ℕ) : bitsOf (m + n) x = bitsOf m (x / 2 ^ n) ++ bitsOf n x := by
  induction m with
  | zero => simp
  | succ m ih =>
    rw [show m + 1 + n = (m + n) + 1 by omega, bitsOf_succ, bitsOf_succ, ih, cons_append,
      testBit_div_two_pow, add_comm]

/-- A quotient and a remainder written side by side. -/
lemma bitsOf_mul_add {m n a b : ℕ} (hb : b < 2 ^ n) :
    bitsOf (m + n) (a * 2 ^ n + b) = bitsOf m a ++ bitsOf n b := by
  have hdiv : (a * 2 ^ n + b) / 2 ^ n = a := by
    rw [add_comm, add_mul_div_right _ _ (by positivity), div_eq_of_lt hb, zero_add]
  have hmod : bitsOf n (a * 2 ^ n + b) = bitsOf n b := by
    rw [← bitsOf_mod (le_refl n) (a * 2 ^ n + b), add_comm, add_mul_mod_self_right,
      bitsOf_mod (le_refl n)]
  rw [bitsOf_append, hdiv, hmod]

@[simp] lemma bitsOf_zero_right (n : ℕ) : bitsOf n 0 = replicate n false := by
  induction n with
  | zero => rfl
  | succ n ih => rw [bitsOf_succ, ih, zero_testBit, replicate_succ]

/-! ### Strings as numbers -/

@[simp] lemma ofBits_nil : ofBits [] = 0 := rfl

lemma ofBits_concat (b : Bool) : ofBits (l ++ [b]) = 2 * ofBits l + b.toNat := by
  unfold ofBits
  rw [foldl_append, foldl_cons, foldl_nil]

lemma ofBits_append (l₁ l₂ : List Bool) :
    ofBits (l₁ ++ l₂) = ofBits l₁ * 2 ^ l₂.length + ofBits l₂ := by
  induction l₂ using reverseRecOn with
  | nil => simp
  | append_singleton l₂ b ih =>
    rw [← append_assoc, ofBits_concat, ih, ofBits_concat, length_append, length_singleton, pow_succ]
    ring

@[simp] lemma ofBits_singleton (b : Bool) : ofBits [b] = b.toNat := by
  cases b <;> rfl

lemma ofBits_lt : ofBits l < 2 ^ l.length := by
  induction l using reverseRecOn with
  | nil => simp
  | append_singleton l b ih =>
    rw [ofBits_concat, length_append, length_singleton, pow_succ]
    have hb : b.toNat ≤ 1 := Bool.toNat_le b
    omega

@[simp] theorem ofBits_bitsOf : ofBits (bitsOf n x) = x % 2 ^ n := by
  induction n with
  | zero => simp [mod_one]
  | succ n ih =>
    rw [bitsOf_succ, ← singleton_append, ofBits_append, ih, length_bitsOf, ofBits_singleton,
      testBit_eq_decide_div_mod_eq, mod_pow_succ]
    rcases mod_two_eq_zero_or_one (x / 2 ^ n) with h | h
    · simp [h]
    · simp [h, add_comm]

/-! ### Byte sequences -/

@[simp] lemma bytesBits_nil : bytesBits [] = [] := rfl

@[simp] lemma bytesBits_cons (b : BitVec 8) (bs : List (BitVec 8)) :
    bytesBits (b :: bs) = bitsOf 8 b.toNat ++ bytesBits bs := rfl

@[simp] lemma bytesBits_append (bs cs : List (BitVec 8)) :
    bytesBits (bs ++ cs) = bytesBits bs ++ bytesBits cs := by
  unfold bytesBits
  rw [flatMap_append]

variable (bs : List (BitVec 8))

@[simp] lemma length_bytesBits : (bytesBits bs).length = 8 * bs.length := by
  induction bs with
  | nil => rfl
  | cons b bs ih =>
    rw [bytesBits_cons, length_append, ih, length_bitsOf, length_cons]
    omega

@[simp] lemma ofBytes_nil : ofBytes [] = 0 := rfl

lemma ofBytes_concat (b : BitVec 8) : ofBytes (bs ++ [b]) = 256 * ofBytes bs + b.toNat := by
  unfold ofBytes
  rw [foldl_append, foldl_cons, foldl_nil]

/-- A byte sequence denotes the number whose bits it spells. -/
lemma bitsOf_ofBytes : bitsOf (8 * bs.length) (ofBytes bs) = bytesBits bs := by
  induction bs using reverseRecOn with
  | nil => rfl
  | append_singleton bs b ih =>
    have hb : b.toNat < 2 ^ 8 := b.isLt
    rw [ofBytes_concat, length_append, length_singleton, mul_add, mul_comm 256,
      show ofBytes bs * 256 = ofBytes bs * 2 ^ 8 by norm_num, bitsOf_mul_add hb, ih,
      bytesBits_append, bytesBits_cons, bytesBits_nil, append_nil]

lemma ofBytes_lt : ofBytes bs < 2 ^ (8 * bs.length) := by
  induction bs using reverseRecOn with
  | nil => simp
  | append_singleton bs b ih =>
    rw [ofBytes_concat, length_append, length_singleton, mul_add, pow_add]
    omega

/-- The last `n` bytes of `x`, most significant byte first. -/
def bytesOf : ℕ → ℕ → List (BitVec 8)
  | 0, _ => []
  | n + 1, x => bytesOf n (x / 256) ++ [BitVec.ofNat 8 x]

@[simp] lemma length_bytesOf : (bytesOf n x).length = n := by
  induction n generalizing x with
  | zero => rfl
  | succ n ih => rw [bytesOf, length_append, ih, length_singleton]

lemma ofBytes_bytesOf : ofBytes (bytesOf n x) = x % 256 ^ n := by
  induction n generalizing x with
  | zero => rw [bytesOf, ofBytes_nil, pow_zero, mod_one]
  | succ n ih =>
    have hsplit : x % (256 * 256 ^ n) = x % 256 + 256 * (x / 256 % 256 ^ n) := mod_mul
    rw [bytesOf, ofBytes_concat, ih, BitVec.toNat_ofNat, pow_succ' 256 n, hsplit, add_comm]

end BitList
