import Prometheus.Chunkenc.Bstream

/-!
# Varints on the bit stream

The base-128 integers of `encoding/binary` that the float chunk stores its first two timestamps
with: seven bits a byte, least significant group first, the top bit of a byte saying that another
one follows; signed integers are zig-zag coded first. `readUvarint` and `readVarint` are the
byte-reader versions with their three failures (no byte, a truncated integer, an overflow).
-/

namespace Prometheus.Chunkenc

open BitList BitVec Nat

/-! ### Encoding -/

/-- At most `n + 1` groups. -/
def putUvarintLoop : ℕ → BitVec 64 → List (BitVec 8)
  | 0, x => [x.setWidth 8]
  | n + 1, x =>
    if 0x80 ≤ x then (x.setWidth 8 ||| 0x80) :: putUvarintLoop n (x >>> 7) else [x.setWidth 8]

variable (x : BitVec 64)

/-- `binary.PutUvarint`: `MaxVarintLen64` groups are enough for 64 bits. -/
def putUvarint : List (BitVec 8) :=
  putUvarintLoop 9 x

/-- Signed to unsigned, small absolute values first. -/
def zigzag : BitVec 64 :=
  if x.msb then ~~~(x <<< 1) else x <<< 1

def unzigzag (ux : BitVec 64) : BitVec 64 :=
  if ux &&& 1 ≠ 0 then ~~~(ux >>> 1) else ux >>> 1

/-- `binary.PutVarint`. -/
def putVarint : List (BitVec 8) :=
  putUvarint (zigzag x)

/-- The write loop of the encoders over the bytes of an integer. -/
def BStream.writeBytes (b : BStream) (bs : List (BitVec 8)) : BStream :=
  bs.foldl BStream.writeByte b

/-! ### Decoding -/

/-- `ReadByte` inside an integer: the end of the stream is unexpected after the first byte. -/
def readVarintByte (i : ℕ) : Rd (BitVec 8) := fun r =>
  match BStreamReader.readByte r with
  | (.error .eof, r) => (.error (if i > 0 then .unexpectedEOF else .eof), r)
  | (res, r) => (res, r)

/-- The loop of `binary.ReadUvarint` from byte `i` on, `x` being the groups read so far. -/
def readUvarintLoop : ℕ → ℕ → BitVec 64 → Rd (BitVec 64)
  | 0, _, _ => throw .varintOverflow
  | n + 1, i, x => do
    let b ← readVarintByte i
    if b < 0x80 then
      if i = 9 ∧ b > 1 then throw .varintOverflow
      else return x ||| (b.setWidth 64 : BitVec 64) <<< (7 * i)
    else readUvarintLoop n (i + 1) (x ||| ((b &&& 0x7f).setWidth 64 : BitVec 64) <<< (7 * i))

/-- `binary.ReadUvarint`. -/
def readUvarint : Rd (BitVec 64) :=
  readUvarintLoop 10 0 0

/-- `binary.ReadVarint`. -/
def readVarint : Rd (BitVec 64) := do
  return unzigzag (← readUvarint)

/-! ### Round trip -/

lemma appends_writeBytes (bs : List (BitVec 8)) : Appends (·.writeBytes bs) (bytesBits bs) :=
  Appends.foldl (appends_writeByte) bs

variable (x : BitVec 64)

lemma unzigzag_zigzag : unzigzag (zigzag x) = x := by
  have hand : ∀ y : BitVec 64, (y &&& 1).toNat = y.toNat % 2 := by
    intro y
    rw [toNat_and]
    exact and_one_is_mod _
  have hne : ∀ y : BitVec 64, y &&& 1 ≠ 0 ↔ y.toNat % 2 = 1 := by
    intro y
    rw [Ne, ← toNat_inj, hand]
    simp
  unfold zigzag unzigzag
  have hmsb : x.msb = decide (2 ^ 63 ≤ x.toNat) := by
    rw [msb_eq_decide]
  by_cases hm : 2 ^ 63 ≤ x.toNat
  · rw [hmsb, decide_eq_true hm, if_pos rfl]
    have hnat : (~~~(x <<< 1)).toNat = 2 ^ 65 - 1 - 2 * x.toNat := by
      rw [toNat_not, toNat_shiftLeft, Nat.shiftLeft_eq]
      omega
    rw [if_pos ((hne _).2 (by rw [hnat]; omega))]
    apply eq_of_toNat_eq
    rw [toNat_not, toNat_ushiftRight, hnat, shiftRight_eq_div_pow]
    omega
  rw [hmsb, decide_eq_false hm, if_neg Bool.false_ne_true]
  have hnat : (x <<< 1).toNat = 2 * x.toNat := by
    rw [toNat_shiftLeft, Nat.shiftLeft_eq]
    omega
  rw [if_neg (by rw [hne, hnat]; omega)]
  apply eq_of_toNat_eq
  rw [toNat_ushiftRight, hnat, shiftRight_eq_div_pow]
  omega

lemma reads_readVarintByte (i : ℕ) (b : BitVec 8) :
    Reads (readVarintByte i) (bitsOf 8 b.toNat) b := by
  intro r rest h
  obtain ⟨r', hread, hrep⟩ := reads_readByte b r rest h
  refine ⟨r', ?_, hrep⟩
  unfold readVarintByte
  rw [hread]

variable {i : ℕ}

/-- Adding a group above the ones read so far. -/
lemma or_group {x : BitVec 64} {g : ℕ} (hx : x.toNat < 2 ^ (7 * i))
    (hsum : x.toNat + g * 2 ^ (7 * i) < 2 ^ 64) :
    x ||| BitVec.ofNat 64 g <<< (7 * i) = BitVec.ofNat 64 (x.toNat + g * 2 ^ (7 * i)) := by
  have hg : g * 2 ^ (7 * i) < 2 ^ 64 := by omega
  have hg64 : g < 2 ^ 64 := lt_of_le_of_lt (Nat.le_mul_of_pos_right g (by positivity)) hg
  apply eq_of_toNat_eq
  rw [toNat_or, toNat_shiftLeft, toNat_ofNat, Nat.mod_eq_of_lt hg64,
    Nat.shiftLeft_eq, Nat.mod_eq_of_lt hg, toNat_ofNat, Nat.mod_eq_of_lt hsum, Nat.or_comm,
    ← Nat.shiftLeft_eq, ← Nat.shiftLeft_add_eq_or_of_lt hx, Nat.shiftLeft_eq, Nat.add_comm]

/-- The last group: a byte below `0x80`, and at most one in the tenth byte. -/
lemma last_group {x y : BitVec 64} (hy : y.toNat < 0x80) (hx : x.toNat < 2 ^ (7 * i))
    (hxy : x.toNat + y.toNat * 2 ^ (7 * i) < 2 ^ 64) :
    (y.setWidth 8 : BitVec 8) < 0x80 ∧ ¬ (i = 9 ∧ (y.setWidth 8 : BitVec 8) > 1) ∧
      x ||| ((y.setWidth 8 : BitVec 8).setWidth 64 : BitVec 64) <<< (7 * i) =
        BitVec.ofNat 64 (x.toNat + y.toNat * 2 ^ (7 * i)) := by
  have hb : (y.setWidth 8 : BitVec 8).toNat = y.toNat := by
    rw [toNat_setWidth]
    omega
  have hword : ((y.setWidth 8 : BitVec 8).setWidth 64 : BitVec 64) = BitVec.ofNat 64 y.toNat := by
    apply eq_of_toNat_eq
    rw [toNat_setWidth, hb, toNat_ofNat]
  refine ⟨?_, ?_, hword ▸ or_group hx hxy⟩
  · rw [lt_def, hb]
    exact hy
  rintro ⟨rfl, hgt⟩
  rw [gt_iff_lt, lt_def, hb] at hgt
  simp at hgt
  omega

/-- A group with more to follow: the decoder has it above the ones read so far, and the encoder
still has to write the shifted rest. -/
lemma more_group {x : BitVec 64} (hx : x.toNat < 2 ^ (7 * i)) (hi : i < 9) (y : BitVec 64) :
    ¬ (y.setWidth 8 ||| 0x80 : BitVec 8) < 0x80 ∧ ∃ x' : BitVec 64,
      x ||| (((y.setWidth 8 ||| 0x80 : BitVec 8) &&& 0x7f).setWidth 64 : BitVec 64) <<< (7 * i) =
        x' ∧ x'.toNat < 2 ^ (7 * (i + 1)) ∧
      x'.toNat + (y >>> 7).toNat * 2 ^ (7 * (i + 1)) = x.toNat + y.toNat * 2 ^ (7 * i) := by
  have hb : (y.setWidth 8 ||| 0x80 : BitVec 8).toNat = y.toNat % 128 + 128 := by
    have hor : ∀ z : BitVec 8, (z ||| 0x80).toNat = z.toNat % 128 + 128 := by decide
    rw [hor, toNat_setWidth]
    omega
  have hlow : ((y.setWidth 8 ||| 0x80 : BitVec 8) &&& 0x7f).setWidth 64
      = BitVec.ofNat 64 (y.toNat % 128) := by
    have hand : ∀ z : BitVec 8, (z &&& 0x7f).toNat = z.toNat % 128 := by decide
    apply eq_of_toNat_eq
    rw [toNat_setWidth, hand, hb, toNat_ofNat]
    omega
  -- what is left splits into this group and the shifted rest
  have hsplit : y.toNat * 2 ^ (7 * i)
      = y.toNat % 128 * 2 ^ (7 * i) + (y >>> 7).toNat * 2 ^ (7 * (i + 1)) := by
    rw [toNat_ushiftRight, shiftRight_eq_div_pow, mul_add 7 i 1, pow_add]
    calc y.toNat * 2 ^ (7 * i)
        = (y.toNat % 128 + 128 * (y.toNat / 128)) * 2 ^ (7 * i) := by rw [mod_add_div]
      _ = _ := by ring
  have hgroup : x.toNat + y.toNat % 128 * 2 ^ (7 * i) < 2 ^ (7 * (i + 1)) := by
    have hm : y.toNat % 128 + 1 ≤ 128 := mod_lt _ (by norm_num)
    calc x.toNat + y.toNat % 128 * 2 ^ (7 * i)
        < (y.toNat % 128 + 1) * 2 ^ (7 * i) := by rw [Nat.add_mul]; omega
      _ ≤ 128 * 2 ^ (7 * i) := Nat.mul_le_mul_right _ hm
      _ = 2 ^ (7 * (i + 1)) := by rw [mul_add 7 i 1, pow_add]; ring
  have hgroup64 : x.toNat + y.toNat % 128 * 2 ^ (7 * i) < 2 ^ 64 :=
    hgroup.trans_le (Nat.pow_le_pow_right (by norm_num) (by omega))
  have hx' : (BitVec.ofNat 64 (x.toNat + y.toNat % 128 * 2 ^ (7 * i))).toNat
      = x.toNat + y.toNat % 128 * 2 ^ (7 * i) := by
    rw [BitVec.toNat_ofNat, mod_eq_of_lt hgroup64]
  refine ⟨?_, BitVec.ofNat 64 (x.toNat + y.toNat % 128 * 2 ^ (7 * i)), ?_, ?_, ?_⟩
  · rw [BitVec.lt_def, hb]
    simp
  · rw [hlow, or_group hx hgroup64]
  · rw [hx']
    exact hgroup
  · rw [hx', hsplit, add_assoc]

lemma reads_lastGroup (n i : ℕ) (x y : BitVec 64) (hy : y.toNat < 0x80)
    (hx : x.toNat < 2 ^ (7 * i)) (hxy : x.toNat + y.toNat * 2 ^ (7 * i) < 2 ^ 64) :
    Reads (readUvarintLoop (n + 1) i x) (bytesBits [y.setWidth 8])
      (BitVec.ofNat 64 (x.toNat + y.toNat * 2 ^ (7 * i))) := by
  obtain ⟨hlow, hnover, hval⟩ := last_group hy hx hxy
  rw [bytesBits_cons, bytesBits_nil]
  refine Reads.bind (reads_readVarintByte i _) ?_
  rw [if_pos hlow, if_neg hnover, hval]
  exact Reads.pure _

/-- The two loops run side by side: after `i` groups the decoder holds them in `x`, and the encoder
still has to write `y`. -/
lemma reads_readUvarintLoop (n i : ℕ) (x y : BitVec 64) (hi : i + n = 9)
    (hx : x.toNat < 2 ^ (7 * i)) (hxy : x.toNat + y.toNat * 2 ^ (7 * i) < 2 ^ 64) :
    Reads (readUvarintLoop (n + 1) i x) (bytesBits (putUvarintLoop n y))
      (BitVec.ofNat 64 (x.toNat + y.toNat * 2 ^ (7 * i))) := by
  induction n generalizing i x y with
  | zero =>
    obtain rfl : i = 9 := by omega
    exact reads_lastGroup 0 9 x y (by omega) hx hxy
  | succ n ih =>
    unfold putUvarintLoop
    by_cases hy : 0x80 ≤ y
    · obtain ⟨hhigh, x', hval, hx', hrest⟩ := more_group hx (by omega) y
      rw [if_pos hy, bytesBits_cons]
      refine Reads.bind (reads_readVarintByte i _) ?_
      rw [if_neg hhigh, hval, ← hrest]
      exact ih (i + 1) x' (y >>> 7) (by omega) hx' (hrest ▸ hxy)
    · rw [if_neg hy]
      rw [le_def, not_le] at hy
      exact reads_lastGroup (n + 1) i x y hy hx hxy

lemma reads_readUvarint : Reads readUvarint (bytesBits (putUvarint x)) x := by
  have h := reads_readUvarintLoop 9 0 0 x rfl (by simp) (by simpa using x.isLt)
  have hx : BitVec.ofNat 64 ((0 : BitVec 64).toNat + x.toNat * 2 ^ (7 * 0)) = x := by simp
  rw [hx] at h
  exact h

lemma reads_readVarint : Reads readVarint (bytesBits (putVarint x)) x := by
  have h := (reads_readUvarint (zigzag x)).map unzigzag
  rwa [unzigzag_zigzag] at h

end Prometheus.Chunkenc
