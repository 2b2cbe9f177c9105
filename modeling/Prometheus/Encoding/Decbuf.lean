import Prometheus.Chunkenc.Varint

/-!
# Encoding and decoding buffers

`Encbuf` and `Decbuf` of `tsdb/encoding/encoding.go`. The methods of `Encbuf` append to a byte
slice, so each of them is the bytes that it appends. The methods of `Decbuf` take a datum off the
front of the buffer, and once one has failed, all fail.

`Gets p bs a` says that `p` reads exactly `bs`, whatever follows, and returns `a`. It goes through
sequences of reads (`Gets.bind`), a counted loop (`Gets.times`) and the loop to the end of a record
(`Gets.entries`). `Ensures p Q` says that `p` returns nothing but values with property `Q`, whatever
it reads, and goes through the same constructs.

The package that decodes varints is not part of the repository. All that is known about it is that
it reads back what was encoded (`Uvarint`).
-/

namespace Prometheus.Encoding

open Chunkenc BitList List

abbrev Bytes := List (BitVec 8)

/-! ### Encbuf -/

variable (x : BitVec 64)

/-- `PutBE64`. -/
def putBE64 : Bytes := bytesOf 8 x.toNat

/-- `PutUvarint64`. -/
def putUvarint64 : Bytes := putUvarint x

/-- `PutUvarint`, of a length. -/
def putUvarintLen (n : ℕ) : Bytes := putUvarint64 (BitVec.ofNat 64 n)

/-- `PutUvarint32`. -/
def putUvarint32 (x : BitVec 32) : Bytes := putUvarint64 (x.setWidth 64)

/-- `PutVarint64`. -/
def putVarint64 : Bytes := putVarint x

/-- `PutUvarintStr`. -/
def putUvarintStr (s : Bytes) : Bytes := putUvarintLen s.length ++ s

/-! ### Decbuf -/

/-- The error of the methods is always `ErrInvalidSize`, so `E` only says whether there is one. -/
structure Decbuf where
  B : Bytes
  E : Bool

/-- `varint.Uvarint`. Without a result, the buffer ends too early or the number is too large. -/
class Uvarint where
  uvarint : Bytes → Option (BitVec 64 × Bytes)
  uvarint_putUvarint : ∀ (x : BitVec 64) (rest : Bytes),
    uvarint (putUvarint x ++ rest) = some (x, rest)

/-- A method of `Decbuf` or a function that calls some. Without a result, it panics. -/
abbrev Get := StateT Decbuf Option

namespace Decbuf

/-- What the methods have in common: nothing is read after an error, and if there is not what `take`
needs, that is an error. -/
def read {α : Type} (zero : α) (take : Bytes → Option (α × Bytes)) : Get α := fun d =>
  if d.E then some (zero, d)
  else
    match take d.B with
    | none => some (zero, { d with E := true })
    | some (x, rest) => some (x, { d with B := rest })

/-- `Byte`. -/
def byte : Get (BitVec 8) :=
  read 0 fun
    | [] => none
    | x :: rest => some (x, rest)

/-- `Be64`. -/
def be64 : Get (BitVec 64) :=
  read 0 fun bs =>
    if bs.length < 8 then none
    else some (BitVec.ofNat 64 (ofBytes (bs.take 8)), bs.drop 8)

variable [Uvarint]

/-- `Uvarint64`. -/
def uvarint64 : Get (BitVec 64) := read 0 Uvarint.uvarint

/-- `Uvarint`, as a number of turns of a loop: none if it is negative. -/
def uvarintLen : Get ℕ := do
  return (← uvarint64).toInt.toNat

/-- `Uvarint32`. -/
def uvarint32 : Get (BitVec 32) := do
  return (← uvarint64).setWidth 32

/-- `Varint64`. -/
def varint64 : Get (BitVec 64) :=
  read 0 fun bs => (Uvarint.uvarint bs).map fun (ux, rest) => (unzigzag ux, rest)

/-- `UvarintBytes` and `UvarintStr`. A negative `int(l)` passes the check and makes the slice
expression panic. -/
def uvarintBytes : Get Bytes := do
  let l ← uvarint64
  fun d =>
    if d.E then some ([], d)
    else if (d.B.length : ℤ) < l.toInt then some ([], { d with E := true })
    else if l.toInt < 0 then none
    else some (d.B.take l.toNat, { d with B := d.B.drop l.toNat })

end Decbuf

/-- A loop of `n` turns that collects what `p` returns. -/
def times {α : Type} (n : ℕ) (p : Get α) : Get (List α) :=
  match n with
  | 0 => pure []
  | n + 1 => do
    let a ← p
    let as ← times n p
    return a :: as

/-- The loop `for len(dec.B) > 0 && dec.Err() == nil`, which appends what `p` returns. Each turn
reads something or fails, so that one turn more than there are bytes is enough. -/
def entriesLoop {α : Type} (p : Get α) : ℕ → List α → Get (List α)
  | 0, out => pure out
  | n + 1, out => fun d =>
    if d.B.length > 0 ∧ d.E = false then
      (do entriesLoop p n (out ++ [← p]) : Get (List α)) d
    else some (out, d)

def entries {α : Type} (p : Get α) (out : List α) : Get (List α) := fun d =>
  entriesLoop p (d.B.length + 1) out d

/-! ### Reading back what is written -/

/-- `p` reads `bs` and returns `a`. -/
def Gets {α : Type} (p : Get α) (bs : Bytes) (a : α) : Prop :=
  ∀ rest, p ⟨bs ++ rest, false⟩ = some (a, ⟨rest, false⟩)

variable {n : ℕ}

namespace Gets

variable {α β : Type} {p : Get α} {bs bs' : Bytes} {a : α} {b : β}

lemma pure (a : α) : Gets (Pure.pure a) [] a := fun _ => rfl

lemma bind_eq (hp : Gets p bs a) (f : α → Get β) (rest : Bytes) :
    (p >>= f) ⟨bs ++ rest, false⟩ = f a ⟨rest, false⟩ := by
  show (p ⟨bs ++ rest, false⟩).bind (fun r => f r.1 r.2) = _
  rw [hp rest, Option.bind_some]

theorem bind {f : α → Get β} (hp : Gets p bs a) (hf : Gets (f a) bs' b) :
    Gets (p >>= f) (bs ++ bs') b := by
  intro rest
  rw [append_assoc, hp.bind_eq]
  exact hf rest

/-- The last read of a sequence. -/
lemma map {f : α → β} (hp : Gets p bs a) : Gets (do return f (← p)) bs (f a) := by
  have h := hp.bind (f := fun a => Pure.pure (f a)) (pure (f a))
  rwa [append_nil] at h

/-- A counted loop over the encodings of a list. -/
theorem times {enc : α → Bytes} {as : List α} (h : ∀ a ∈ as, Gets p (enc a) a) :
    Gets (Encoding.times as.length p) (as.flatMap enc) as := by
  induction as with
  | nil => exact pure []
  | cons a as ih =>
    obtain ⟨ha, has⟩ := forall_mem_cons.1 h
    exact ha.bind ((ih has).map)

lemma entriesLoop {enc : β → Bytes} {f : β → α} {xs : List β}
    (h : ∀ x ∈ xs, Gets p (enc x) (f x) ∧ enc x ≠ []) (out : List α) (hn : xs.length ≤ n) :
    Encoding.entriesLoop p n out ⟨xs.flatMap enc, false⟩ = some (out ++ xs.map f, ⟨[], false⟩) := by
  induction xs generalizing out n with
  | nil =>
    rw [map_nil, append_nil]
    cases n <;> rfl
  | cons x xs ih =>
    obtain ⟨⟨hx, hne⟩, hxs⟩ := forall_mem_cons.1 h
    obtain ⟨n, rfl⟩ : ∃ m, n = m + 1 := ⟨n - 1, by rw [length_cons] at hn; omega⟩
    have hpos : 0 < (enc x).length := length_pos_iff.2 hne
    have hturn : (enc x ++ xs.flatMap enc).length > 0 ∧ false = false :=
      ⟨by rw [length_append]; omega, rfl⟩
    rw [flatMap_cons, Encoding.entriesLoop]
    beta_reduce
    rw [if_pos hturn, hx.bind_eq, ih hxs (out ++ [f x]) (Nat.le_of_succ_le_succ hn)]
    simp

/-- The loop to the end of a record, where an entry may be read back as something else. -/
lemma entries_map {enc : β → Bytes} {f : β → α} {xs : List β}
    (h : ∀ x ∈ xs, Gets p (enc x) (f x) ∧ enc x ≠ []) (out : List α) :
    Encoding.entries p out ⟨xs.flatMap enc, false⟩ = some (out ++ xs.map f, ⟨[], false⟩) := by
  have hlen : xs.length ≤ (xs.flatMap enc).length := by
    clear out
    induction xs with
    | nil => exact Nat.le_refl _
    | cons x xs ih =>
      obtain ⟨⟨-, hne⟩, hxs⟩ := forall_mem_cons.1 h
      have := length_pos_iff.2 hne
      have := ih hxs
      rw [flatMap_cons, length_append, length_cons]
      omega
  exact entriesLoop h out (Nat.le_succ_of_le hlen)

theorem entries {enc : α → Bytes} {as : List α} (h : ∀ a ∈ as, Gets p (enc a) a ∧ enc a ≠ [])
    (out : List α) :
    Encoding.entries p out ⟨as.flatMap enc, false⟩ = some (out ++ as, ⟨[], false⟩) := by
  have hmap := entries_map (f := id) h out
  rwa [map_id] at hmap

lemma read {zero : α} {take : Bytes → Option (α × Bytes)}
    (h : ∀ rest, take (bs ++ rest) = some (a, rest)) : Gets (Decbuf.read zero take) bs a := by
  intro rest
  simp [Decbuf.read, h rest]

end Gets

/-! ### What a read can return -/

/-- Whatever `p` returns has property `Q`. -/
def Ensures {α : Type} (p : Get α) (Q : α → Prop) : Prop :=
  ∀ d a d', p d = some (a, d') → Q a

namespace Ensures

variable {α β : Type} {p : Get α} {Q : α → Prop} {R : β → Prop}

lemma trivial (p : Get α) : Ensures p fun _ => True := fun _ _ _ _ => True.intro

lemma pure {a : α} (h : Q a) : Ensures (Pure.pure a) Q := by
  rintro d b d' hb
  cases hb
  exact h

variable (hp : Ensures p Q)
include hp

theorem bind {f : α → Get β} (hf : ∀ a, Q a → Ensures (f a) R) : Ensures (p >>= f) R := by
  intro d b d' hb
  obtain ⟨⟨a, d''⟩, ha, hb⟩ := Option.bind_eq_some_iff.1
    (show (p d).bind (fun r => f r.1 r.2) = some (b, d') from hb)
  exact hf a (hp d a d'' ha) d'' b d' hb

theorem times (n : ℕ) : Ensures (Encoding.times n p) fun as => as.length = n ∧ ∀ a ∈ as, Q a := by
  induction n with
  | zero => exact pure ⟨rfl, by simp⟩
  | succ n ih =>
    refine hp.bind fun a ha => ih.bind fun as has => pure ⟨?_, ?_⟩
    · rw [length_cons, has.1]
    · exact forall_mem_cons.2 ⟨ha, has.2⟩

lemma entriesLoop (n : ℕ) {out : List α} (hout : ∀ a ∈ out, Q a) :
    Ensures (Encoding.entriesLoop p n out) fun as => ∀ a ∈ as, Q a := by
  induction n generalizing out with
  | zero => exact pure hout
  | succ n ih =>
    intro d as d' has
    unfold Encoding.entriesLoop at has
    split_ifs at has
    · refine hp.bind (R := fun as => ∀ a ∈ as, Q a) (fun a ha => ?_) d as d' has
      refine ih fun b hb => ?_
      obtain hb | hb := mem_append.1 hb
      · exact hout b hb
      · rwa [mem_singleton.1 hb]
    · cases has
      exact hout

theorem entries {out : List α} (hout : ∀ a ∈ out, Q a) :
    Ensures (Encoding.entries p out) fun as => ∀ a ∈ as, Q a :=
  fun d as d' has => hp.entriesLoop (d.B.length + 1) hout d as d' has

end Ensures

/-- A length is an `int` that is not negative. -/
lemma ensures_uvarintLen [Uvarint] : Ensures Decbuf.uvarintLen fun n => n < 2 ^ 63 := by
  refine (Ensures.trivial _).bind fun l _ => Ensures.pure ?_
  have := BitVec.toInt_lt (x := l)
  omega

lemma ensures_uvarintBytes [Uvarint] : Ensures Decbuf.uvarintBytes fun s => s.length < 2 ^ 63 := by
  refine (Ensures.trivial _).bind fun l _ => ?_
  intro d s d' hs
  beta_reduce at hs
  split_ifs at hs with hE hlong hneg
  · cases hs
    norm_num
  · cases hs
    norm_num
  cases hs
  -- the slice has as many bytes as the length says, and that is not negative
  have hnat := BitVec.toInt_eq_toNat_cond l
  rw [length_take]
  split_ifs at hnat <;> omega

/-! ### The data -/

lemma gets_byte (x : BitVec 8) : Gets Decbuf.byte [x] x := Gets.read fun _ => rfl

lemma gets_be64 (x : BitVec 64) : Gets Decbuf.be64 (putBE64 x) x := by
  refine Gets.read fun rest => ?_
  have hlen : (putBE64 x).length = 8 := length_bytesOf 8 x.toNat
  have hval : BitVec.ofNat 64 (ofBytes (putBE64 x)) = x := by
    apply BitVec.eq_of_toNat_eq
    rw [putBE64, ofBytes_bytesOf, BitVec.toNat_ofNat, Nat.mod_mod_of_dvd _ (by norm_num),
      Nat.mod_eq_of_lt x.isLt]
  rw [if_neg (by rw [length_append]; omega), take_left' hlen, drop_left' hlen, hval]

lemma gets_uvarint64 [Uvarint] (x : BitVec 64) : Gets Decbuf.uvarint64 (putUvarint64 x) x :=
  Gets.read (Uvarint.uvarint_putUvarint x)

lemma gets_varint64 [Uvarint] (x : BitVec 64) : Gets Decbuf.varint64 (putVarint64 x) x := by
  refine Gets.read fun rest => ?_
  rw [putVarint64, putVarint, Uvarint.uvarint_putUvarint, Option.map_some]
  exact congrArg (fun y => some (y, rest)) (unzigzag_zigzag x)

lemma gets_uvarint32 [Uvarint] (x : BitVec 32) : Gets Decbuf.uvarint32 (putUvarint32 x) x := by
  have h := (gets_uvarint64 (x.setWidth 64)).map (f := fun y => y.setWidth 32)
  rwa [BitVec.setWidth_setWidth_of_le _ (by norm_num), BitVec.setWidth_eq] at h

lemma toInt_ofNat_of_lt (hn : n < 2 ^ 63) : (BitVec.ofNat 64 n).toInt = n := by
  have hnat : (BitVec.ofNat 64 n).toNat = n := by
    rw [BitVec.toNat_ofNat, Nat.mod_eq_of_lt (by omega)]
  rw [BitVec.toInt_eq_toNat_of_lt (by omega), hnat]

lemma gets_uvarintLen [Uvarint] (hn : n < 2 ^ 63) : Gets Decbuf.uvarintLen (putUvarintLen n) n := by
  have h := (gets_uvarint64 (BitVec.ofNat 64 n)).map (f := fun y => y.toInt.toNat)
  rwa [toInt_ofNat_of_lt hn, Int.toNat_natCast] at h

lemma gets_uvarintBytes [Uvarint] {s : Bytes} (hs : s.length < 2 ^ 63) :
    Gets Decbuf.uvarintBytes (putUvarintStr s) s := by
  refine (gets_uvarint64 _).bind fun rest => ?_
  have hint := toInt_ofNat_of_lt hs
  have hnat : (BitVec.ofNat 64 s.length).toNat = s.length := by
    rw [BitVec.toNat_ofNat, Nat.mod_eq_of_lt (by omega)]
  have hlong : ¬ ((s ++ rest).length : ℤ) < (BitVec.ofNat 64 s.length).toInt := by
    rw [hint, length_append]
    omega
  have hneg : ¬ (BitVec.ofNat 64 s.length).toInt < 0 := by omega
  simp only [Bool.false_eq_true, if_false, if_neg hlong, if_neg hneg, hnat, take_left, drop_left]

/-! ### One that reads back what was encoded -/

/-- The loop of `binary.Uvarint` from byte `i` on, `x` being the groups read so far. -/
def uvarintLoop : ℕ → ℕ → BitVec 64 → Bytes → Option (BitVec 64 × Bytes)
  | 0, _, _, _ => none
  | _, _, _, [] => none
  | n + 1, i, x, b :: rest =>
    if b < 0x80 then
      if i = 9 ∧ b > 1 then none
      else some (x ||| (b.setWidth 64 : BitVec 64) <<< (7 * i), rest)
    else uvarintLoop n (i + 1) (x ||| ((b &&& 0x7f).setWidth 64 : BitVec 64) <<< (7 * i)) rest

lemma uvarintLoop_last (n i : ℕ) {x y : BitVec 64} (hy : y.toNat < 0x80)
    (hx : x.toNat < 2 ^ (7 * i)) (hxy : x.toNat + y.toNat * 2 ^ (7 * i) < 2 ^ 64) (rest : Bytes) :
    uvarintLoop (n + 1) i x (y.setWidth 8 :: rest) =
      some (BitVec.ofNat 64 (x.toNat + y.toNat * 2 ^ (7 * i)), rest) := by
  obtain ⟨hlow, hnover, hval⟩ := last_group hy hx hxy
  rw [uvarintLoop, if_pos hlow, if_neg hnover, hval]

/-- The loops of encoder and decoder run side by side, as in `reads_readUvarintLoop`. -/
lemma uvarintLoop_putUvarintLoop (n i : ℕ) (x y : BitVec 64) (hi : i + n = 9)
    (hx : x.toNat < 2 ^ (7 * i)) (hxy : x.toNat + y.toNat * 2 ^ (7 * i) < 2 ^ 64) (rest : Bytes) :
    uvarintLoop (n + 1) i x (putUvarintLoop n y ++ rest) =
      some (BitVec.ofNat 64 (x.toNat + y.toNat * 2 ^ (7 * i)), rest) := by
  induction n generalizing i x y with
  | zero =>
    obtain rfl : i = 9 := by omega
    exact uvarintLoop_last 0 9 (by omega) hx hxy rest
  | succ n ih =>
    unfold putUvarintLoop
    by_cases hy : 0x80 ≤ y
    · obtain ⟨hhigh, x', hval, hx', hrest⟩ := more_group hx (by omega) y
      rw [if_pos hy, cons_append, uvarintLoop, if_neg hhigh, hval, ← hrest]
      exact ih (i + 1) x' (y >>> 7) (by omega) hx' (hrest ▸ hxy)
    rw [if_neg hy]
    rw [BitVec.le_def, not_le] at hy
    exact uvarintLoop_last (n + 1) i hy hx hxy rest

lemma uvarintLoop_putUvarint (x : BitVec 64) (rest : Bytes) :
    uvarintLoop 10 0 0 (putUvarint x ++ rest) = some (x, rest) := by
  have h := uvarintLoop_putUvarintLoop 9 0 0 x rfl (by simp) (by simpa using x.isLt) rest
  have hx : BitVec.ofNat 64 ((0 : BitVec 64).toNat + x.toNat * 2 ^ (7 * 0)) = x := by simp
  rwa [hx] at h

instance : Uvarint := ⟨uvarintLoop 10 0 0, uvarintLoop_putUvarint⟩

end Prometheus.Encoding
