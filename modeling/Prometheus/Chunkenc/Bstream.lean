import Prometheus.Lib.BitList

/-!
# The bit stream of the chunk encodings

`BStream` is the append-only bit stream the chunk encoders write, `BStreamReader` the buffered
reader the iterators pull from (`tsdb/chunkenc/bstream.go`). Machine words are `BitVec`s.

Both are tied to bit strings by one relation each:

* `BStream.Rep b l`: the bits written so far are `l`, and the `count` bits still free in the last
  byte are zero;
* `BStreamReader.Rep r l`: the bits still to be read are `l`, whatever part of them has already
  been moved into the 64-bit buffer.

Every write appends its field to the string (`Appends`), every successful read strips its field
off the front (`Reads`). Codecs above this layer are proven by composing these two and never see a
byte, an offset or the buffer.
-/

namespace Prometheus.Chunkenc

open BitList BitVec

open List hiding append_assoc beq_eq_decide cons_append replicate_succ

/-! ### Writing -/

/-- A stream of bits: the data bytes and how many of the right-most bits of the last byte are
still available for writing. -/
structure BStream where
  stream : List (BitVec 8)
  count : ℕ
  deriving DecidableEq, Repr

namespace BStream

def writeBit (b : BStream) (bit : Bool) : BStream :=
  let b := if b.count = 0 then ⟨b.stream ++ [0], 8⟩ else b
  ⟨if bit then b.stream.modifyLast (· ||| (1 : BitVec 8) <<< (b.count - 1)) else b.stream,
    b.count - 1⟩

def writeByte (b : BStream) (byt : BitVec 8) : BStream :=
  if b.count = 0 then ⟨b.stream ++ [byt], b.count⟩
  else
    -- Complete the last byte with the leftmost bits from `byt`, then write the remainder.
    ⟨b.stream.modifyLast (· ||| byt >>> (8 - b.count)) ++ [byt <<< b.count], b.count⟩

/-- The two loops of `writeBits`: whole bytes as long as there are eight bits left, then bit by
bit. The next bits to write are the leftmost ones of `u`. -/
def writeBitsLoop (b : BStream) (u : BitVec 64) : ℕ → BStream
  | n + 8 => writeBitsLoop (b.writeByte ((u >>> 56).setWidth 8)) (u <<< 8) n
  | n + 1 => writeBitsLoop (b.writeBit ((u >>> 63) == 1)) (u <<< 1) n
  | 0 => b

/-- Write the `nbits` right-most bits of `u` in left-to-right order. -/
def writeBits (b : BStream) (u : BitVec 64) (nbits : ℕ) : BStream :=
  b.writeBitsLoop (u <<< (64 - nbits)) nbits

/-- The stream holds the bit string `l`, padded with `count` zero bits to a whole byte. -/
structure Rep (b : BStream) (l : List Bool) : Prop where
  count_lt : b.count < 8
  bits : bytesBits b.stream = l ++ replicate b.count false

end BStream

/-- `w` appends the bit string `l` to any stream. -/
def Appends (w : BStream → BStream) (l : List Bool) : Prop :=
  ∀ b pre, b.Rep pre → (w b).Rep (pre ++ l)

lemma Appends.id : Appends id [] := by
  intro b pre h
  rw [append_nil]
  exact h

variable {l₁ l₂ : List Bool}

/-- Writes compose, and their fields stand one after the other. -/
lemma Appends.comp {w₁ w₂ : BStream → BStream}
    (h₁ : Appends w₁ l₁) (h₂ : Appends w₂ l₂) : Appends (fun b => w₂ (w₁ b)) (l₁ ++ l₂) := by
  intro b pre h
  rw [← List.append_assoc]
  exact h₂ _ _ (h₁ b pre h)

lemma Appends.foldl {α : Type} {w : BStream → α → BStream} {enc : α → List Bool}
    (h : ∀ a, Appends (w · a) (enc a)) (as : List α) :
    Appends (fun b => as.foldl w b) (as.flatMap enc) := by
  induction as with
  | nil => exact Appends.id
  | cons a as ih => exact (h a).comp ih

variable {l : List Bool}

/-- Filling the free bits of the last byte. -/
private lemma bytesBits_modifyLast {s : List (BitVec 8)} {c : ℕ} (hc : c ≤ 8)
    (hpos : 0 < c) (hs : bytesBits s = l ++ replicate c false) {x : BitVec 8}
    (hx : x.toNat < 2 ^ c) :
    bytesBits (s.modifyLast (· ||| x)) = l ++ bitsOf c x.toNat := by
  induction s using reverseRecOn with
  | nil =>
    have := congrArg length hs
    simp at this
    omega
  | append_singleton s last _ =>
    rw [bytesBits_append, bytesBits_cons, bytesBits_nil, append_nil] at hs
    have hsplit : bitsOf 8 last.toNat
        = bitsOf (8 - c) (last.toNat / 2 ^ c) ++ bitsOf c last.toNat := by
      rw [← bitsOf_append, Nat.sub_add_cancel hc]
    rw [hsplit, ← List.append_assoc] at hs
    obtain ⟨hl, hz⟩ := append_inj' hs (by simp)
    -- the free bits are zero, so `last` is a multiple of `2 ^ c`
    have hlow : last.toNat % 2 ^ c = 0 := by
      rw [← ofBits_bitsOf, hz, ← bitsOf_zero_right, ofBits_bitsOf, Nat.zero_mod]
    have hor : (last ||| x).toNat = last.toNat / 2 ^ c * 2 ^ c + x.toNat := by
      have hlast : last.toNat / 2 ^ c * 2 ^ c = last.toNat :=
        Nat.div_mul_cancel (Nat.dvd_of_mod_eq_zero hlow)
      rw [toNat_or, ← Nat.shiftLeft_eq, Nat.shiftLeft_add_eq_or_of_lt hx, Nat.shiftLeft_eq, hlast]
    rw [modifyLast_concat, bytesBits_append, bytesBits_cons, bytesBits_nil, append_nil,
      hor, ← hl, List.append_assoc]
    congr 1
    rw [← bitsOf_mul_add hx, Nat.sub_add_cancel hc]

lemma appends_writeBit (bit : Bool) : Appends (·.writeBit bit) [bit] := by
  intro b pre h
  -- first the free bits: the last byte has `c` of them, `0 < c`
  obtain ⟨s, c, hb, hc, hpos, hs⟩ : ∃ s c,
      (if b.count = 0 then (⟨b.stream ++ [0], 8⟩ : BStream) else b) = ⟨s, c⟩ ∧ c ≤ 8 ∧ 0 < c ∧
        bytesBits s = pre ++ List.replicate c false := by
    by_cases h0 : b.count = 0
    · refine ⟨b.stream ++ [0], 8, by rw [if_pos h0], le_refl 8, by omega, ?_⟩
      rw [bytesBits_append, h.bits, h0]
      simp
    · refine ⟨b.stream, b.count, by rw [if_neg h0], h.count_lt.le, by omega, h.bits⟩
  change (BStream.writeBit b bit).Rep _
  unfold BStream.writeBit
  rw [hb]
  refine ⟨show c - 1 < 8 by omega, ?_⟩
  simp only
  cases bit with
  | false =>
    rw [if_neg Bool.false_ne_true, hs, List.append_assoc, List.singleton_append,
      ← List.replicate_succ, Nat.sub_add_cancel hpos]
  | true =>
    have hx : ((1 : BitVec 8) <<< (c - 1)).toNat = 2 ^ (c - 1) := toNat_twoPow_of_lt (by omega)
    have hlt : 2 ^ (c - 1) < 2 ^ c := Nat.pow_lt_pow_right (by omega) (by omega)
    rw [if_pos rfl, bytesBits_modifyLast hc hpos hs (by rw [hx]; exact hlt), hx, List.append_assoc]
    congr 1
    obtain ⟨k, rfl⟩ : ∃ k, c = k + 1 := ⟨c - 1, by omega⟩
    have hk := bitsOf_mul_add (m := 1) (n := k) (a := 1) (by positivity)
    rw [Nat.add_comm, Nat.one_mul, Nat.add_zero, bitsOf_zero_right] at hk
    rw [Nat.add_sub_cancel]
    exact hk

lemma appends_writeByte (byt : BitVec 8) : Appends (·.writeByte byt) (bitsOf 8 byt.toNat) := by
  intro b pre h
  change BStream.Rep (BStream.writeByte b byt) _
  unfold BStream.writeByte
  by_cases h0 : b.count = 0
  · rw [if_pos h0]
    refine ⟨h.count_lt, ?_⟩
    rw [bytesBits_append, h.bits, h0]
    simp
  rw [if_neg h0]
  have hc := h.count_lt
  refine ⟨hc, ?_⟩
  have hhi : (byt >>> (8 - b.count)).toNat = byt.toNat / 2 ^ (8 - b.count) := by
    rw [toNat_ushiftRight, Nat.shiftRight_eq_div_pow]
  have hhilt : byt.toNat / 2 ^ (8 - b.count) < 2 ^ b.count := by
    rw [Nat.div_lt_iff_lt_mul (by positivity), ← pow_add, Nat.add_sub_cancel' hc.le]
    exact byt.isLt
  have hlo : bitsOf 8 (byt <<< b.count).toNat
      = bitsOf (8 - b.count) byt.toNat ++ List.replicate b.count false := by
    rw [toNat_shiftLeft, bitsOf_mod (le_refl 8), Nat.shiftLeft_eq]
    have := bitsOf_mul_add (m := 8 - b.count) (n := b.count) (a := byt.toNat) (by positivity)
    rwa [Nat.sub_add_cancel hc.le, Nat.add_zero, bitsOf_zero_right] at this
  rw [bytesBits_append, bytesBits_modifyLast hc.le (by omega) h.bits (by rw [hhi]; exact hhilt),
    bytesBits_cons, bytesBits_nil, List.append_nil, hlo, hhi, ← List.append_assoc,
    List.append_assoc pre, ← bitsOf_append, Nat.add_sub_cancel' hc.le]

/-- Shifting a word left brings its lower bits to the front. -/
private lemma bitsOf_shiftLeft (u : BitVec 64) {k n : ℕ} (h : n + k ≤ 64) :
    bitsOf n ((u <<< k).toNat / 2 ^ (64 - n)) = bitsOf n (u.toNat / 2 ^ (64 - (n + k))) := by
  refine bitsOf_congr fun i hi => ?_
  rw [Nat.testBit_div_two_pow, Nat.testBit_div_two_pow, toNat_shiftLeft,
    Nat.testBit_mod_two_pow, Nat.testBit_shiftLeft,
    show i + (64 - n) - k = i + (64 - (n + k)) by omega]
  simp [show i + (64 - n) < 64 by omega, show k ≤ i + (64 - n) by omega]

/-- The loops write the leftmost `n` bits of their word. -/
private lemma rep_writeBitsLoop (b : BStream) (u : BitVec 64) (n : ℕ) (hn : n ≤ 64)
    (pre : List Bool) (h : b.Rep pre) :
    (b.writeBitsLoop u n).Rep (pre ++ bitsOf n (u.toNat / 2 ^ (64 - n))) := by
  fun_induction BStream.writeBitsLoop b u n generalizing pre with
  | case1 b u n ih =>
    have hbyte := appends_writeByte ((u >>> 56).setWidth 8) b pre h
    have hrest := ih (by omega) _ hbyte
    rw [bitsOf_shiftLeft u (by omega : n + 8 ≤ 64), List.append_assoc] at hrest
    change BStream.Rep _ (pre ++ bitsOf (n + 8) (u.toNat / 2 ^ (64 - (n + 8))))
    rw [Nat.add_comm n 8, bitsOf_append, Nat.div_div_eq_div_mul, ← pow_add,
      show 64 - (8 + n) + n = 56 by omega, Nat.add_comm 8 n]
    convert hrest using 3
    rw [toNat_setWidth, bitsOf_mod (le_refl 8), toNat_ushiftRight, Nat.shiftRight_eq_div_pow]
  | case2 b u n _ ih =>
    have hbit := appends_writeBit ((u >>> 63) == 1) b pre h
    have hrest := ih (by omega) _ hbit
    rw [bitsOf_shiftLeft u (by omega : n + 1 ≤ 64), List.append_assoc] at hrest
    change BStream.Rep _ (pre ++ bitsOf (n + 1) (u.toNat / 2 ^ (64 - (n + 1))))
    rw [Nat.add_comm n 1, bitsOf_append, Nat.div_div_eq_div_mul, ← pow_add,
      show 64 - (1 + n) + n = 63 by omega, Nat.add_comm 1 n]
    convert hrest using 3
    have hlt : u.toNat / 2 ^ 63 < 2 := by have := u.isLt; omega
    have hone : ((u >>> 63) == 1) = decide (u.toNat / 2 ^ 63 = 1) := by
      rw [beq_eq_decide, decide_eq_decide, ← toNat_inj, toNat_ushiftRight,
        Nat.shiftRight_eq_div_pow]
      rfl
    rw [hone, bitsOf_succ, Nat.testBit_zero, Nat.mod_eq_of_lt hlt]
    rfl
  | case3 b u => simpa [BStream.writeBitsLoop] using h

lemma appends_writeBits (u : BitVec 64) {n : ℕ} (hn : n ≤ 64) :
    Appends (·.writeBits u n) (bitsOf n u.toNat) := by
  intro b pre h
  have hloop := rep_writeBitsLoop b (u <<< (64 - n)) n hn pre h
  rwa [bitsOf_shiftLeft u (by omega), show 64 - (n + (64 - n)) = 0 by omega, pow_zero,
    Nat.div_one] at hloop

/-! ### Reading -/

/-- The errors the chunk decoders report. -/
inductive ReadError
  | eof
  | unexpectedEOF
  | varintOverflow
  /-- `invalid bit pattern %b` of the varbit decoders. -/
  | invalidBitPattern (d : BitVec 8)
  deriving DecidableEq, Repr

/-- The buffered reader: `valid` right-most bits of `buffer` are still to be read (from the left),
then the bytes of `stream` from `streamOffset` on. `last` is a copy of the last byte. -/
structure BStreamReader where
  stream : List (BitVec 8)
  streamOffset : ℕ
  buffer : BitVec 64
  valid : BitVec 8
  last : BitVec 8
  deriving DecidableEq, Repr

/-- A read: it moves the reader, also when it fails. -/
abbrev Rd := ExceptT ReadError (StateM BStreamReader)

def newBReader (b : List (BitVec 8)) : BStreamReader :=
  { stream := b, streamOffset := 0, buffer := 0, valid := 0, last := b.getLast?.getD 0 }

namespace BStreamReader

/-- The slow path of `loadNextBuffer`: `nbytes` bytes are or-ed into the buffer one by one, the
very last byte of the stream being taken from the copy. -/
def slowBuffer (b : BStreamReader) (nbytes : ℕ) : BitVec 64 :=
  let atEnd := b.streamOffset + nbytes == b.stream.length
  let buffer : BitVec 64 := if atEnd then b.last.setWidth 64 else 0
  let skip := if atEnd then 1 else 0
  (range (nbytes - skip)).foldl
    (fun acc i => acc |||
      ((b.stream.getD (b.streamOffset + i) 0).setWidth 64 : BitVec 64) <<< (8 * (nbytes - i - 1)))
    buffer

def loadNextBuffer (b : BStreamReader) (nbits : BitVec 8) : Bool × BStreamReader :=
  if b.streamOffset ≥ b.stream.length then (false, b)
  else if b.streamOffset + 8 < b.stream.length then
    (true, { b with
      buffer := BitVec.ofNat 64 (ofBytes ((b.stream.drop b.streamOffset).take 8))
      streamOffset := b.streamOffset + 8
      valid := 64 })
  else
    let nbytes := (nbits / 8 + 1).toNat
    let nbytes :=
      if b.streamOffset + nbytes > b.stream.length then b.stream.length - b.streamOffset
      else nbytes
    (true, { b with
      buffer := b.slowBuffer nbytes
      streamOffset := b.streamOffset + nbytes
      valid := BitVec.ofNat 8 (nbytes * 8) })

def readBitFast : Rd Bool := fun b =>
  if b.valid = 0 then (.error .eof, b)
  else
    let b := { b with valid := b.valid - 1 }
    (.ok (b.buffer &&& (1 : BitVec 64) <<< b.valid.toNat != 0), b)

def readBit : Rd Bool := fun b =>
  if b.valid = 0 then
    match b.loadNextBuffer 1 with
    | (false, b) => (.error .eof, b)
    | (true, b) => readBitFast b
  else readBitFast b

variable (nbits : BitVec 8)

def readBitsFast : Rd (BitVec 64) := fun b =>
  if nbits > b.valid then (.error .eof, b)
  else
    let bitmask := (1 : BitVec 64) <<< nbits.toNat - 1
    let b := { b with valid := b.valid - nbits }
    (.ok (b.buffer >>> b.valid.toNat &&& bitmask), b)

/-- The part of `readBits` after the buffer is known not to be empty. -/
def readBitsLoaded : Rd (BitVec 64) := fun b =>
  if nbits ≤ b.valid then readBitsFast nbits b
  else
    -- Read all remaining valid bits from the current buffer and a part from the next one.
    let bitmask := (1 : BitVec 64) <<< b.valid.toNat - 1
    let nbits := nbits - b.valid
    let v := (b.buffer &&& bitmask) <<< nbits.toNat
    match { b with valid := 0 }.loadNextBuffer nbits with
    | (false, b) => (.error .eof, b)
    | (true, b) =>
      let bitmask := (1 : BitVec 64) <<< nbits.toNat - 1
      (.ok (v ||| (b.buffer >>> (b.valid - nbits).toNat &&& bitmask)),
        { b with valid := b.valid - nbits })

/-- Construct a word from the next `nbits` bits of the stream. -/
def readBits : Rd (BitVec 64) := fun b =>
  if b.valid = 0 then
    match b.loadNextBuffer nbits with
    | (false, b) => (.error .eof, b)
    | (true, b) => readBitsLoaded nbits b
  else readBitsLoaded nbits b

def readByte : Rd (BitVec 8) := do
  let v ← readBits 8
  return v.setWidth 8

/-- The callers' idiom: the fast read first, the full one if the buffer did not suffice. -/
def readBitFastFirst : Rd Bool := fun b =>
  match readBitFast b with
  | (.ok bit, b) => (.ok bit, b)
  | (.error _, b) => readBit b

@[inherit_doc readBitFastFirst]
def readBitsFastFirst : Rd (BitVec 64) := fun b =>
  match readBitsFast nbits b with
  | (.ok bits, b) => (.ok bits, b)
  | (.error _, b) => readBits nbits b

/-- The bits still to be read are `l`. -/
structure Rep (r : BStreamReader) (l : List Bool) : Prop where
  valid_le : r.valid.toNat ≤ 64
  /-- `last` is the last byte of the stream. -/
  last_eq : ∀ b, r.stream.getLast? = some b → r.last = b
  bits : bitsOf r.valid.toNat r.buffer.toNat ++ bytesBits (r.stream.drop r.streamOffset) = l

end BStreamReader

variable (bs : List (BitVec 8))

lemma rep_newBReader : (newBReader bs).Rep (bytesBits bs) where
  valid_le := by simp [newBReader]
  last_eq := by
    intro b hb
    simp only [newBReader] at hb ⊢
    rw [hb]
    rfl
  bits := by simp [newBReader]

/-- `m` reads the bit string `l` off the front of any stream and returns `a`. -/
def Reads {α : Type} (m : Rd α) (l : List Bool) (a : α) : Prop :=
  ∀ (r : BStreamReader) (rest : List Bool), r.Rep (l ++ rest) →
    ∃ r', m r = (.ok a, r') ∧ r'.Rep rest

lemma Reads.pure {α : Type} (a : α) : Reads (Pure.pure a) [] a :=
  fun r _ h => ⟨r, rfl, h⟩

variable {α β : Type} {m : Rd α} {l : List Bool} {r : BStreamReader} {n : BitVec 8} {b : BStream}

variable {f : α → Rd β}

lemma Rd.bind_apply : (m >>= f) r = ExceptT.bindCont f (m r).1 (m r).2 := rfl

/-- Reads compose, and their fields stand one after the other. -/
lemma Reads.bind {a : α} {b : β}
    (h₁ : Reads m l₁ a) (h₂ : Reads (f a) l₂ b) : Reads (m >>= f) (l₁ ++ l₂) b := by
  intro r rest h
  rw [List.append_assoc] at h
  obtain ⟨r₁, hm, hr₁⟩ := h₁ r _ h
  obtain ⟨r₂, hf, hr₂⟩ := h₂ r₁ rest hr₁
  refine ⟨r₂, ?_, hr₂⟩
  rw [Rd.bind_apply, hm]
  exact hf

lemma Reads.map {a : α} (h : Reads m l a) (f : α → β) :
    Reads (m >>= fun x => Pure.pure (f x)) l (f a) := by
  have := h.bind (f := fun x => Pure.pure (f x)) (Reads.pure (f a))
  rwa [List.append_nil] at this

variable {r : BStreamReader}

/-- A sequence of reads succeeds only if both do. -/
lemma Rd.bind_eq_ok {b : β} {r' : BStreamReader}
    (h : (m >>= f) r = (.ok b, r')) : ∃ a r₁, m r = (.ok a, r₁) ∧ f a r₁ = (.ok b, r') := by
  rw [Rd.bind_apply] at h
  obtain ⟨res, r₁, hm⟩ : ∃ res r₁, m r = (res, r₁) := ⟨_, _, rfl⟩
  rw [hm] at h ⊢
  cases res with
  | ok a => exact ⟨a, r₁, rfl, h⟩
  | error e => cases (Prod.mk.inj h).1

/-- From state `s` on, reading step by step consumes the string and passes through the states
listed. -/
inductive Decodes {σ : Type} (step : σ → Rd σ) : σ → List Bool → List σ → Prop
  | nil (s : σ) : Decodes step s [] []
  | cons {s s' : σ} {l l' : List Bool} {ss : List σ} (head : Reads (step s) l s')
      (tail : Decodes step s' l' ss) : Decodes step s (l ++ l') (s' :: ss)

/-- A string that decodes can be extended by what is readable in the last state. -/
lemma Decodes.concat {σ : Type} {step : σ → Rd σ} {s s' : σ} {l' : List Bool} {ss : List σ}
    (h : Decodes step s l ss) (hs : Reads (step (ss.getLastD s)) l' s') :
    Decodes step s (l ++ l') (ss ++ [s']) := by
  induction h with
  | nil s => simpa using Decodes.cons hs (.nil s')
  | cons head _ ih =>
    rw [List.append_assoc]
    rw [getLastD_cons] at hs
    exact .cons head (ih hs)

open BStreamReader

/-! ### The primitive reads -/

/-- Or-ing a field into the free bits below an aligned word. -/
private lemma or_field {a b l p q : ℕ} (hb : b < 2 ^ q) (hl : l < 2 ^ p) :
    (a * 2 ^ (q + p) + l) ||| b * 2 ^ p = (a * 2 ^ q + b) * 2 ^ p + l := by
  have hmid : b * 2 ^ p + l < 2 ^ (q + p) := by
    have : b + 1 ≤ 2 ^ q := hb
    calc b * 2 ^ p + l < b * 2 ^ p + 2 ^ p := by omega
      _ = (b + 1) * 2 ^ p := by ring
      _ ≤ 2 ^ q * 2 ^ p := Nat.mul_le_mul_right _ this
      _ = 2 ^ (q + p) := (pow_add 2 q p).symm
  have hlow : l < 2 ^ (q + p) := by
    refine lt_of_le_of_lt (Nat.le_add_left l (b * 2 ^ p)) hmid
  rw [← Nat.shiftLeft_eq a, Nat.shiftLeft_add_eq_or_of_lt hlow, ← Nat.shiftLeft_eq b,
    Nat.or_assoc, Nat.or_comm l, ← Nat.shiftLeft_add_eq_or_of_lt hl b, Nat.shiftLeft_eq b,
    ← Nat.shiftLeft_add_eq_or_of_lt hmid a, Nat.shiftLeft_eq]
  ring

/-- Or-ing `k` bytes one by one into the top of a `t`-byte field spells the number they denote;
`l` is what already stands below. -/
private lemma foldl_or_bytes (t k : ℕ) (hk : k ≤ bs.length) (hkt : k ≤ t)
    (ht : 8 * t ≤ 64) {l : BitVec 64} (hl : l.toNat < 2 ^ (8 * (t - k))) :
    ((range k).foldl (fun acc i => acc |||
        ((bs.getD i 0).setWidth 64 : BitVec 64) <<< (8 * (t - i - 1))) l).toNat
      = ofBytes (bs.take k) * 2 ^ (8 * (t - k)) + l.toNat := by
  induction k with
  | zero => simp
  | succ k ih =>
    have hgrow : 2 ^ (8 * (t - (k + 1))) ≤ 2 ^ (8 * (t - k)) :=
      Nat.pow_le_pow_right (by omega) (by omega)
    have hbyte : (((bs.getD k 0).setWidth 64 : BitVec 64) <<< (8 * (t - k - 1))).toNat
        = (bs.getD k 0).toNat * 2 ^ (8 * (t - (k + 1))) := by
      have hlt : (bs.getD k 0).toNat * 2 ^ (8 * (t - (k + 1))) < 2 ^ 64 := by
        calc (bs.getD k 0).toNat * 2 ^ (8 * (t - (k + 1))) < 2 ^ 8 * 2 ^ (8 * (t - (k + 1))) :=
              Nat.mul_lt_mul_of_pos_right (bs.getD k 0).isLt (by positivity)
          _ = 2 ^ (8 + 8 * (t - (k + 1))) := (pow_add 2 8 _).symm
          _ ≤ 2 ^ 64 := Nat.pow_le_pow_right (by omega) (by omega)
      rw [toNat_shiftLeft, toNat_setWidth_of_le (by decide), Nat.shiftLeft_eq, Nat.sub_sub,
        Nat.mod_eq_of_lt hlt]
    have htake : bs.take (k + 1) = bs.take k ++ [bs.getD k 0] := by
      rw [List.take_add_one, List.getElem?_eq_getElem (by omega), Option.toList_some,
        getD_eq_getElem _ _ (by omega)]
    rw [range_succ, foldl_append, foldl_cons, foldl_nil, toNat_or,
      ih (by omega) (by omega) (lt_of_lt_of_le hl hgrow), hbyte, htake, ofBytes_concat,
      show 8 * (t - k) = 8 + 8 * (t - (k + 1)) by omega, or_field (bs.getD k 0).isLt hl]
    ring

/-- The slow path reads the bytes it counts, whichever way the last one is fetched. -/
private lemma toNat_slowBuffer
    (hlast : ∀ b, r.stream.getLast? = some b → r.last = b) {n : ℕ} (hpos : 0 < n) (hn : n ≤ 8)
    (hle : r.streamOffset + n ≤ r.stream.length) :
    (r.slowBuffer n).toNat = ofBytes ((r.stream.drop r.streamOffset).take n) := by
  have hlen : (r.stream.drop r.streamOffset).length = r.stream.length - r.streamOffset := by simp
  have hget : ∀ i, r.stream.getD (r.streamOffset + i) 0 =
    (r.stream.drop r.streamOffset).getD i 0 := by
    intro i
    simp [getD_eq_getElem?_getD]
  unfold slowBuffer
  simp only [hget]
  by_cases hend : r.streamOffset + n = r.stream.length
  · -- the last of the bytes is the last one of the stream
    obtain ⟨k, rfl⟩ : ∃ k, n = k + 1 := ⟨n - 1, by omega⟩
    have hwidth : (r.last.setWidth 64 : BitVec 64).toNat = r.last.toNat :=
      toNat_setWidth_of_le (by decide)
    have hlt : (r.last.setWidth 64 : BitVec 64).toNat < 2 ^ (8 * (k + 1 - k)) := by
      rw [hwidth, Nat.add_sub_cancel_left]
      exact r.last.isLt
    have hgl : r.stream.getLast? = some ((r.stream.drop r.streamOffset).getD k 0) := by
      rw [getLast?_eq_getElem?, ← hend, getD_eq_getElem _ _ (by omega),
        List.getElem_drop, List.getElem?_eq_getElem (by omega)]
      rfl
    have htake : (r.stream.drop r.streamOffset).take (k + 1)
        = (r.stream.drop r.streamOffset).take k ++ [r.last] := by
      rw [List.take_add_one, List.getElem?_eq_getElem (by omega), Option.toList_some,
        hlast _ hgl, getD_eq_getElem _ _ (by omega)]
    simp only [hend, beq_self_eq_true, if_true, Nat.add_sub_cancel]
    rw [foldl_or_bytes _ (k + 1) k (by omega) (by omega) (by omega) hlt, htake, ofBytes_concat,
      hwidth, Nat.add_sub_cancel_left, Nat.mul_comm]
    norm_num
  · simp only [beq_eq_false_iff_ne.2 hend, Bool.false_eq_true, if_false, Nat.sub_zero]
    rw [foldl_or_bytes _ n n (by omega) (le_refl n) (by omega) (by simp)]
    simp

/-- **Loading** moves bytes from the stream to the empty buffer, at least as many as are asked for
and there. -/
lemma rep_loadNextBuffer (h : r.Rep l) (h0 : r.valid = 0) (hn : n.toNat ≤ 64)
    (hlen : 0 < l.length) :
    ∃ r', r.loadNextBuffer n = (true, r') ∧ r'.Rep l ∧ min n.toNat l.length ≤ r'.valid.toNat := by
  have hbits := h.bits
  rw [h0] at hbits
  simp only [ofNat_eq_ofNat, toNat_ofNat, Nat.zero_mod, bitsOf_zero, nil_append] at hbits
  have hl : l.length = 8 * (r.stream.length - r.streamOffset) := by
    rw [← hbits, length_bytesBits, length_drop]
  -- moving the first `k` bytes keeps the string
  have hmove : ∀ k, k ≤ r.stream.length - r.streamOffset →
      bitsOf (8 * k) (ofBytes ((r.stream.drop r.streamOffset).take k))
        ++ bytesBits (r.stream.drop (r.streamOffset + k)) = l := by
    intro k hk
    have := bitsOf_ofBytes ((r.stream.drop r.streamOffset).take k)
    rw [length_take, length_drop, Nat.min_eq_left hk] at this
    rw [this, ← drop_drop, ← bytesBits_append, List.take_append_drop, hbits]
  unfold loadNextBuffer
  rw [if_neg (by omega)]
  by_cases hfast : r.streamOffset + 8 < r.stream.length
  · rw [if_pos hfast]
    refine ⟨_, rfl, ⟨by simp, h.last_eq, ?_⟩, by simp [hn]⟩
    change bitsOf 64 (BitVec.ofNat 64 _).toNat ++ _ = l
    rw [toNat_ofNat, bitsOf_mod (le_refl 64)]
    exact hmove 8 (by omega)
  rw [if_neg hfast]
  -- eight bytes or fewer are left
  have hn8 : (n / 8 + 1 : BitVec 8).toNat = n.toNat / 8 + 1 := by
    rw [toNat_add, toNat_udiv]
    simp
    omega
  obtain ⟨k, hk, hkpos, hk8, hkle, hkn⟩ : ∃ k,
      (if r.streamOffset + (n / 8 + 1 : BitVec 8).toNat > r.stream.length
        then r.stream.length - r.streamOffset else (n / 8 + 1 : BitVec 8).toNat) = k ∧
      0 < k ∧ k ≤ 8 ∧ k ≤ r.stream.length - r.streamOffset ∧ min n.toNat l.length ≤ 8 * k := by
    refine ⟨_, rfl, ?_⟩
    rw [hn8]
    split <;> omega
  refine ⟨_, rfl, ?_⟩
  simp only [hk]
  have hvalid : (BitVec.ofNat 8 (k * 8)).toNat = 8 * k := by
    rw [toNat_ofNat]
    omega
  refine ⟨⟨by rw [hvalid]; omega, h.last_eq, ?_⟩, by rw [hvalid]; exact hkn⟩
  simp only [hvalid]
  rw [toNat_slowBuffer h.last_eq hkpos hk8 (by omega)]
  exact hmove k hkle

/-- The bit masks of the reader keep the low `n` bits, also for `n = 64`, where the shifted one
overflows to zero. -/
lemma toNat_and_mask (x : BitVec 64) {n : ℕ} (hn : n ≤ 64) :
    (x &&& ((1 : BitVec 64) <<< n - 1)).toNat = x.toNat % 2 ^ n := by
  have hmask : ((1 : BitVec 64) <<< n - 1).toNat = 2 ^ n - 1 := by
    rcases Nat.lt_or_eq_of_le hn with hlt | rfl
    · have hone : ((1 : BitVec 64) <<< n).toNat = 2 ^ n := toNat_twoPow_of_lt hlt
      rw [toNat_sub_of_le (by rw [le_def, hone]; exact Nat.one_le_two_pow), hone]
      rfl
    · rfl
  rw [toNat_and, hmask, Nat.and_two_pow_sub_one_eq_mod]

/-- A read the buffer suffices for. -/
lemma rep_readBitsFast (h : r.Rep l) (hn : n.toNat ≤ r.valid.toNat) :
    ∃ r', readBitsFast n r = (.ok (BitVec.ofNat 64 (ofBits (l.take n.toNat))), r') ∧
      r'.Rep (l.drop n.toNat) := by
  have hv := h.valid_le
  have hsub : (r.valid - n).toNat = r.valid.toNat - n.toNat := toNat_sub_of_le hn
  have hbits := h.bits
  rw [← Nat.add_sub_cancel' hn, bitsOf_append, List.append_assoc] at hbits
  have hval : r.buffer >>> (r.valid - n).toNat &&& ((1 : BitVec 64) <<< n.toNat - 1)
      = BitVec.ofNat 64 (ofBits (l.take n.toNat)) := by
    apply eq_of_toNat_eq
    have hpow : 2 ^ n.toNat ≤ 2 ^ 64 := Nat.pow_le_pow_right (by omega) (by omega)
    have hlt := Nat.mod_lt (r.buffer.toNat / 2 ^ (r.valid.toNat - n.toNat))
      (show 0 < 2 ^ n.toNat by positivity)
    rw [← hbits, take_left' (length_bitsOf _ _), ofBits_bitsOf, toNat_ofNat,
      Nat.mod_eq_of_lt (lt_of_lt_of_le hlt hpow), toNat_and_mask _ (by omega),
      toNat_ushiftRight, Nat.shiftRight_eq_div_pow, hsub]
  unfold readBitsFast
  rw [if_neg (by rw [gt_iff_lt, lt_def]; omega)]
  refine ⟨{ r with valid := r.valid - n }, ?_, ?_, h.last_eq, ?_⟩
  · simp only [hval]
  · change (r.valid - n).toNat ≤ 64
    omega
  · change bitsOf (r.valid - n).toNat r.buffer.toNat ++ _ = _
    rw [hsub, ← hbits, drop_left' (length_bitsOf _ _)]

/-- A read that straddles two buffers or finds the buffer filled. -/
lemma rep_readBitsLoaded (h : r.Rep l) (hn : n.toNat ≤ 64) (hlen : n.toNat ≤ l.length) :
    ∃ r', readBitsLoaded n r = (.ok (BitVec.ofNat 64 (ofBits (l.take n.toNat))), r') ∧
      r'.Rep (l.drop n.toNat) := by
  unfold readBitsLoaded
  by_cases hfit : n ≤ r.valid
  · rw [if_pos hfit]
    exact rep_readBitsFast h hfit
  rw [if_neg hfit]
  have hlt : r.valid.toNat < n.toNat := by
    rw [le_def] at hfit
    omega
  have hsub : (n - r.valid).toNat = n.toNat - r.valid.toNat := toNat_sub_of_le hlt.le
  -- the string splits into what is buffered and what is not
  set hi := bitsOf r.valid.toNat r.buffer.toNat with hhi
  set lo := bytesBits (r.stream.drop r.streamOffset) with hlo
  have hl : l = hi ++ lo := h.bits.symm
  have hhilen : hi.length = r.valid.toNat := length_bitsOf _ _
  have hrep0 : { r with valid := 0 : BStreamReader }.Rep lo := by
    refine ⟨by simp, h.last_eq, ?_⟩
    simp [hlo]
  have hlolen : n.toNat - r.valid.toNat ≤ lo.length := by
    rw [hl, length_append] at hlen
    omega
  obtain ⟨r₁, hload, hrep₁, hval₁⟩ := rep_loadNextBuffer hrep0 rfl
    (n := n - r.valid) (by omega) (by omega)
  obtain ⟨r₂, hfast, hrep₂⟩ := rep_readBitsFast hrep₁ (n := n - r.valid) (by omega)
  have hge : ¬ (n - r.valid > r₁.valid) := by
    rw [gt_iff_lt, lt_def]
    omega
  unfold readBitsFast at hfast
  rw [if_neg hge] at hfast
  obtain ⟨hok, hr₂⟩ := Prod.mk.inj hfast
  have hword := Except.ok.inj hok
  refine ⟨r₂, ?_, ?_⟩
  · simp only [hload, hword, hr₂]
    congr 2
    apply eq_of_toNat_eq
    set tail := lo.take (n - r.valid).toNat with htail
    have htaillen : tail.length = n.toNat - r.valid.toNat := by
      rw [htail, length_take, hsub]
      omega
    have htaillt : ofBits tail < 2 ^ (n.toNat - r.valid.toNat) := htaillen ▸ ofBits_lt tail
    have hbuf : ofBits hi = r.buffer.toNat % 2 ^ r.valid.toNat := ofBits_bitsOf _ _
    have hsum : ofBits hi * 2 ^ (n.toNat - r.valid.toNat) + ofBits tail < 2 ^ 64 := by
      have hlt := ofBits_lt (hi ++ tail)
      rw [ofBits_append, htaillen, length_append, hhilen, htaillen] at hlt
      exact lt_of_lt_of_le hlt (Nat.pow_le_pow_right (by omega) (by omega))
    have htake : l.take n.toNat = hi ++ tail := by
      rw [hl, take_append, take_of_length_le (by omega), hhilen, htail, hsub]
    rw [htake, ofBits_append, htaillen, toNat_ofNat, Nat.mod_eq_of_lt hsum,
      toNat_or, toNat_shiftLeft, toNat_and_mask _ h.valid_le, hsub, ← hbuf,
      toNat_ofNat, Nat.mod_eq_of_lt (by omega), Nat.shiftLeft_eq,
      Nat.mod_eq_of_lt (by omega), ← Nat.shiftLeft_eq,
      ← Nat.shiftLeft_add_eq_or_of_lt htaillt]
  · rw [hl, drop_append, drop_of_length_le (by omega), nil_append, hhilen, ← hsub]
    exact hrep₂

/-- **`readBits` strips the next `n` bits.** -/
lemma rep_readBits (h : r.Rep l)
    (hpos : 0 < n.toNat) (hn : n.toNat ≤ 64) (hlen : n.toNat ≤ l.length) :
    ∃ r', readBits n r = (.ok (BitVec.ofNat 64 (ofBits (l.take n.toNat))), r') ∧
      r'.Rep (l.drop n.toNat) := by
  unfold readBits
  by_cases h0 : r.valid = 0
  · obtain ⟨r₁, hload, hrep₁, -⟩ := rep_loadNextBuffer h h0 hn (by omega)
    rw [if_pos h0, hload]
    exact rep_readBitsLoaded hrep₁ hn hlen
  · rw [if_neg h0]
    exact rep_readBitsLoaded h hn hlen

lemma reads_readBits (hpos : 0 < n.toNat) (hn : n.toNat ≤ 64) (x : BitVec 64)
    (hx : x.toNat < 2 ^ n.toNat) : Reads (readBits n) (bitsOf n.toNat x.toNat) x := by
  intro r rest h
  obtain ⟨r', hread, hrep⟩ := rep_readBits h hpos hn (by simp)
  rw [take_left' (length_bitsOf _ _), ofBits_bitsOf, Nat.mod_eq_of_lt hx,
    ofNat_toNat, setWidth_eq] at hread
  rw [drop_left' (length_bitsOf _ _)] at hrep
  exact ⟨r', hread, hrep⟩

/-- The fast variant changes nothing: it is the buffered case of the full read. -/
lemma readBitsFastFirst_eq (n : BitVec 8) (hpos : 0 < n.toNat) :
    readBitsFastFirst n = readBits n := by
  funext r
  unfold readBitsFastFirst readBitsFast
  by_cases hgt : n > r.valid
  · rw [if_pos hgt]
  have hle : n ≤ r.valid := BitVec.not_lt.1 hgt
  have h0 : r.valid ≠ 0 := by
    rintro h0
    rw [le_def, h0] at hle
    simp at hle
    omega
  rw [if_neg hgt]
  unfold readBits readBitsLoaded readBitsFast
  rw [if_neg h0, if_pos hle, if_neg hgt]

/-- A single bit from a filled buffer. -/
private lemma rep_readBitFast {b : Bool} (h : r.Rep (b :: l)) (h0 : r.valid ≠ 0) :
    ∃ r', readBitFast r = (.ok b, r') ∧ r'.Rep l := by
  have hpos : 1 ≤ r.valid.toNat := by
    rw [Nat.one_le_iff_ne_zero]
    exact fun h => h0 (eq_of_toNat_eq h)
  have hsub : (r.valid - 1).toNat = r.valid.toNat - 1 := toNat_sub_of_le hpos
  have hbits := h.bits
  rw [← Nat.sub_add_cancel hpos, bitsOf_succ, List.cons_append] at hbits
  obtain ⟨hb, hl⟩ := cons.inj hbits
  have hv := h.valid_le
  have hval : (r.buffer &&& (1 : BitVec 64) <<< (r.valid - 1).toNat != 0) = b := by
    have hone : (twoPow 64 (r.valid.toNat - 1)).toNat = 2 ^ (r.valid.toNat - 1) :=
      toNat_twoPow_of_lt (by omega)
    change (r.buffer &&& twoPow 64 _ != 0) = b
    rw [hsub, and_twoPow, getLsbD, hb]
    cases b with
    | false => rfl
    | true =>
      rw [if_pos rfl, bne_iff_ne, ne_eq, ← toNat_inj, hone]
      exact (Nat.two_pow_pos _).ne'
  unfold readBitFast
  rw [if_neg h0]
  refine ⟨{ r with valid := r.valid - 1 }, ?_, ?_, h.last_eq, ?_⟩
  · simp only [hval]
  · change (r.valid - 1).toNat ≤ 64
    omega
  · change bitsOf (r.valid - 1).toNat r.buffer.toNat ++ _ = _
    rw [hsub, hl]

lemma reads_readBit (b : Bool) : Reads readBit [b] b := by
  intro r rest h
  unfold readBit
  by_cases h0 : r.valid = 0
  · obtain ⟨r₁, hload, hrep₁, hval⟩ :=
      rep_loadNextBuffer (n := 1) h h0 (by simp) (by simp)
    have h1 : r₁.valid ≠ 0 := by
      rintro h1
      rw [h1] at hval
      simp at hval
    rw [if_pos h0, hload]
    exact rep_readBitFast hrep₁ h1
  · rw [if_neg h0]
    exact rep_readBitFast h h0

@[inherit_doc readBitsFastFirst_eq]
lemma readBitFastFirst_eq : readBitFastFirst = readBit := by
  funext r
  unfold readBitFastFirst readBitFast
  by_cases h0 : r.valid = 0
  · rw [if_pos h0]
  rw [if_neg h0]
  unfold readBit readBitFast
  rw [if_neg h0, if_neg h0]

lemma reads_readByte (x : BitVec 8) : Reads readByte (bitsOf 8 x.toNat) x := by
  have hx : (x.setWidth 64 : BitVec 64).toNat = x.toNat := toNat_setWidth_of_le (by decide)
  have hword := reads_readBits (n := 8) (by simp) (by simp) (x.setWidth 64)
    (by rw [hx]; exact x.isLt)
  rw [hx] at hword
  have hback : (x.setWidth 64 : BitVec 64).setWidth 8 = x := by
    rw [setWidth_setWidth_of_le _ (by decide), setWidth_eq]
  have := hword.map (fun v => v.setWidth 8)
  rwa [hback] at this

/-! ### Sequences of reads -/

/-- A read, with the fast variant tried first where there is one. -/
inductive ReadCall
  | bit
  | bits (n : BitVec 8) (pos : 0 < n.toNat) (le : n.toNat ≤ 64)
  | byte

namespace ReadCall

def width : ReadCall → ℕ
  | bit => 1
  | bits n _ _ => n.toNat
  | byte => 8

def run (r : BStreamReader) : ReadCall → Except ReadError ℕ × BStreamReader
  | bit => (readBitFastFirst r).map (.map Bool.toNat) id
  | bits n _ _ => (readBitsFastFirst n r).map (.map BitVec.toNat) id
  | byte => (readByte r).map (.map BitVec.toNat) id

def runAll : List ReadCall → BStreamReader → List (Except ReadError ℕ)
  | [], _ => []
  | c :: calls, r => (c.run r).1 :: runAll calls (c.run r).2

end ReadCall

/-- What a read of `w` bits should return. -/
def nextBits (w : ℕ) (l : List Bool) : Except ReadError ℕ :=
  if w ≤ l.length then .ok (ofBits (l.take w)) else .error .eof

/-- What a sequence of reads should give. -/
def nextFields : List ReadCall → List Bool → List (Except ReadError ℕ)
  | [], _ => []
  | c :: calls, l => nextBits c.width l :: nextFields calls (l.drop c.width)

namespace BStreamReader

/-- There are `w` bits left, or the buffer is empty, or nothing is left behind it. -/
abbrev Serves (r : BStreamReader) (w : ℕ) : Prop :=
  w ≤ r.valid.toNat + 8 * (r.stream.length - r.streamOffset) ∨ r.valid = 0 ∨
    r.stream.length ≤ r.streamOffset

/-- The same for every read of a sequence. -/
def ServesAll : List ReadCall → BStreamReader → Prop
  | [], _ => True
  | c :: calls, r => r.Serves c.width ∧ ServesAll calls (c.run r).2

/-- How a read of `w` bits ends. -/
def Gets (r : BStreamReader) (w : ℕ) (l : List Bool) (res : Except ReadError ℕ × BStreamReader) :
    Prop :=
  if r.Serves w then res.1 = nextBits w l ∧ res.2.Rep (l.drop w) else res.1 ≠ nextBits w l

lemma Rep.length_eq (h : r.Rep l) :
    l.length = r.valid.toNat + 8 * (r.stream.length - r.streamOffset) := by
  rw [← h.bits, length_append, length_bitsOf, length_bytesBits, length_drop]

/-- Nothing is left to be loaded. -/
lemma readBitsLoaded_short (h : r.Rep l) (hend : r.stream.length ≤ r.streamOffset)
    (hlen : l.length < n.toNat) : ∃ r', readBitsLoaded n r = (.error .eof, r') ∧ r'.Rep [] := by
  have hl := h.length_eq
  refine ⟨{ r with valid := 0 }, ?_, by simp, h.last_eq, ?_⟩
  · simp [readBitsLoaded, loadNextBuffer, le_def, hend, show ¬ n.toNat ≤ r.valid.toNat by omega]
  · simp [drop_of_length_le hend]

lemma readBits_short (h : r.Rep l) (hn : n.toNat ≤ 64) (hlen : l.length < n.toNat)
    (hone : r.valid = 0 ∨ r.stream.length ≤ r.streamOffset) :
    ∃ r', readBits n r = (.error .eof, r') ∧ r'.Rep [] := by
  have hl := h.length_eq
  unfold readBits
  split_ifs with h0
  · by_cases hnil : l.length = 0
    · obtain rfl := length_eq_zero_iff.1 hnil
      exact ⟨r, by simp [loadNextBuffer, show r.stream.length ≤ r.streamOffset by omega], h⟩
    · -- All that is left is loaded.
      obtain ⟨r₁, hload, hrep, hvalid⟩ := rep_loadNextBuffer h h0 hn (by omega)
      have hl₁ := hrep.length_eq
      rw [hload]
      exact readBitsLoaded_short hrep (by omega) hlen
  · exact readBitsLoaded_short h (hone.resolve_left h0) hlen

/-- A read that straddles two buffers does not look at how much the second one holds. -/
lemma readBits_straddling (h0 : r.valid ≠ 0) (hend : ¬ r.stream.length ≤ r.streamOffset)
    (hlt : r.valid.toNat < n.toNat) : ∃ x r', readBits n r = (.ok x, r') := by
  have hload : ∃ r', { r with valid := 0 }.loadNextBuffer (n - r.valid) = (true, r') := by
    unfold loadNextBuffer
    rw [if_neg hend]
    split_ifs <;> exact ⟨_, rfl⟩
  obtain ⟨r', hload⟩ := hload
  simp only [readBits, readBitsLoaded, if_neg h0,
    if_neg (show ¬ n ≤ r.valid from not_le.2 hlt), hload]
  exact ⟨_, _, rfl⟩

lemma gets_readBits (h : r.Rep l) (hpos : 0 < n.toNat) (hn : n.toNat ≤ 64) {f : BitVec 64 → ℕ}
    (hf : ∀ x : BitVec 64, x.toNat < 2 ^ n.toNat → f x = x.toNat) :
    r.Gets n.toNat l ((readBits n r).map (.map f) id) := by
  have hl := h.length_eq
  unfold Gets nextBits
  split_ifs with hserves hlen hlen
  · obtain ⟨r', hread, hrep⟩ := rep_readBits h hpos hn hlen
    have hlt := length_take_of_le hlen ▸ ofBits_lt (l.take n.toNat)
    have hval : (BitVec.ofNat 64 (ofBits (l.take n.toNat))).toNat = ofBits (l.take n.toNat) :=
      Nat.mod_eq_of_lt (hlt.trans_le (Nat.pow_le_pow_right two_pos hn))
    rw [hread]
    exact ⟨congrArg Except.ok ((hf _ (hval.symm ▸ hlt)).trans hval), hrep⟩
  · obtain ⟨r', hread, hrep⟩ := readBits_short h hn (by omega) (hserves.resolve_left (by omega))
    rw [hread, drop_of_length_le (by omega)]
    exact ⟨rfl, hrep⟩
  · exact absurd (.inl (hl ▸ hlen)) hserves
  · obtain ⟨x, r', hread⟩ := readBits_straddling (n := n) (fun h0 => hserves (.inr (.inl h0)))
      (fun hend => hserves (.inr (.inr hend))) (by omega)
    rw [hread]
    rintro ⟨⟩

lemma gets_run (c : ReadCall) (h : r.Rep l) : r.Gets c.width l (c.run r) := by
  have hl := h.length_eq
  cases c with
  | bit =>
    rw [ReadCall.run, readBitFastFirst_eq]
    cases l with
    | nil =>
      rw [length_nil] at hl
      have h0 : r.valid = 0 := eq_of_toNat_eq (by simp; omega)
      have hend : r.stream.length ≤ r.streamOffset := by omega
      rw [Gets, if_pos (.inr (.inl h0)), readBit, if_pos h0, loadNextBuffer, if_pos hend]
      exact ⟨rfl, h⟩
    | cons b l =>
      obtain ⟨r', hread, hrep⟩ := reads_readBit b r l h
      rw [hread, Gets, if_pos (.inl (hl ▸ by simp [ReadCall.width]))]
      exact ⟨by cases b <;> rfl, hrep⟩
  | bits n hpos hn =>
    rw [ReadCall.run, readBitsFastFirst_eq n hpos]
    exact gets_readBits h hpos hn fun _ _ => rfl
  | byte =>
    have hrun : readByte r = (readBits 8 r).map (.map (·.setWidth 8)) id := by
      rw [readByte, Rd.bind_apply]
      rcases readBits 8 r with ⟨_ | _, _⟩ <;> rfl
    rw [ReadCall.run, hrun]
    have hgets := gets_readBits (n := 8) h (by simp) (by simp)
      (f := fun x => (x.setWidth 8).toNat) fun x hx => toNat_setWidth _ _ ▸ Nat.mod_eq_of_lt hx
    rcases hread : readBits 8 r with ⟨_ | _, _⟩ <;> rwa [hread] at hgets

lemma Rep.runAll_eq_iff (calls : List ReadCall) (h : r.Rep l) :
    ReadCall.runAll calls r = nextFields calls l ↔ ServesAll calls r := by
  induction calls generalizing r l with
  | nil => exact iff_of_true rfl trivial
  | cons c calls ih =>
    have hgets := gets_run c h
    rw [ReadCall.runAll, nextFields, cons.injEq, ServesAll]
    unfold Gets at hgets
    split_ifs at hgets with hserves
    · rw [ih hgets.2]
      exact and_congr_left' (iff_of_true hgets.1 hserves)
    · exact iff_of_false (fun heq => hgets heq.1) (fun hall => hserves hall.1)

/-- Reads return the bits of the stream, and the end of it as soon as there are too few, unless the
first one that finds too few needs two buffers. -/
theorem runAll_eq_nextFields_iff (bs : List (BitVec 8)) (calls : List ReadCall) :
    ReadCall.runAll calls (newBReader bs) = nextFields calls (bytesBits bs) ↔
      ServesAll calls (newBReader bs) :=
  (rep_newBReader bs).runAll_eq_iff calls

/-- A read of 16 bits where 15 are left, 7 of them in the buffer. -/
theorem runAll_straddling :
    ReadCall.runAll [.bit, .bits 16 (by decide) (by decide)] (newBReader [255, 255]) =
      [.ok 1, .ok 65024] ∧
    nextFields [.bit, .bits 16 (by decide) (by decide)] (bytesBits [255, 255]) =
      [.ok 1, .error .eof] := by
  decide

end BStreamReader

/-! ### The sample counter

The first two bytes of every chunk count its samples. -/

/-- `binary.BigEndian.Uint16`. -/
def bigEndianUint16 (b : List (BitVec 8)) : BitVec 16 :=
  BitVec.ofNat 16 (ofBytes (b.take 2))

/-- `binary.BigEndian.PutUint16`: overwrite the first two bytes. -/
def putUint16 (b : List (BitVec 8)) (v : BitVec 16) : List (BitVec 8) :=
  [(v >>> 8).setWidth 8, v.setWidth 8] ++ b.drop 2

def BStream.putUint16 (b : BStream) (v : BitVec 16) : BStream :=
  { b with stream := Chunkenc.putUint16 b.stream v }

variable {hdr : List Bool}

/-- The first bytes of a stream hold the first bits of its string. -/
lemma BStream.Rep.take (h : b.Rep (hdr ++ l)) {n : ℕ} (hn : hdr.length = 8 * n) :
    bytesBits (b.stream.take n) = hdr ∧
      bytesBits (b.stream.drop n) = l ++ List.replicate b.count false := by
  have hbits := h.bits
  have hlen : n ≤ b.stream.length := by
    have := congrArg List.length hbits
    rw [length_bytesBits, length_append, length_append, hn, length_replicate] at this
    omega
  rw [← List.take_append_drop n b.stream, bytesBits_append, List.append_assoc] at hbits
  exact append_inj hbits (by rw [length_bytesBits, length_take, hn, Nat.min_eq_left hlen])

lemma BStream.Rep.bigEndianUint16 {v : BitVec 16}
    (h : b.Rep (bitsOf 16 v.toNat ++ l)) : Chunkenc.bigEndianUint16 b.stream = v := by
  obtain ⟨hhead, -⟩ := h.take (n := 2) (by simp)
  have hlen : 8 * (b.stream.take 2).length = 16 := by
    rw [← length_bytesBits, hhead, length_bitsOf]
  have hnum := bitsOf_ofBytes (b.stream.take 2)
  have hlt := ofBytes_lt (b.stream.take 2)
  rw [hlen] at hnum hlt
  have hval := congrArg ofBits (hnum.trans hhead)
  rw [ofBits_bitsOf, ofBits_bitsOf, Nat.mod_eq_of_lt hlt, Nat.mod_eq_of_lt v.isLt] at hval
  unfold Chunkenc.bigEndianUint16
  rw [hval, ofNat_toNat, setWidth_eq]

lemma BStream.Rep.putUint16 (h : b.Rep (hdr ++ l))
    (hhdr : hdr.length = 16) (v : BitVec 16) : (b.putUint16 v).Rep (bitsOf 16 v.toNat ++ l) := by
  obtain ⟨-, htail⟩ := h.take (n := 2) hhdr
  refine ⟨h.count_lt, ?_⟩
  change bytesBits ([(v >>> 8).setWidth 8, v.setWidth 8] ++ b.stream.drop 2) = _
  have hhi : bitsOf 8 ((v >>> 8).setWidth 8 : BitVec 8).toNat = bitsOf 8 (v.toNat / 2 ^ 8) := by
    rw [toNat_setWidth, bitsOf_mod (le_refl 8), toNat_ushiftRight, Nat.shiftRight_eq_div_pow]
  have hlo : bitsOf 8 (v.setWidth 8 : BitVec 8).toNat = bitsOf 8 v.toNat := by
    rw [toNat_setWidth, bitsOf_mod (le_refl 8)]
  rw [bytesBits_append, htail, bytesBits_cons, bytesBits_cons, bytesBits_nil, hhi, hlo,
    List.append_nil, ← bitsOf_append, List.append_assoc]
  rfl

end Prometheus.Chunkenc
