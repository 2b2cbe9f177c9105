import Prometheus.Chunkenc.Chunk
import Prometheus.Chunkenc.Varint
import Prometheus.Chunkenc.XorCodec

/-!
# The XOR chunk of float samples

`XORChunk`, its appender and its iterator (`tsdb/chunkenc/xor.go`). Timestamps are `int64`s and
values float bit patterns, both as `BitVec 64`; all differences wrap.

The round trip is proven for whole life cycles of a chunk: `ChunkOp` is either an append or the
loss of the appender, which is then rebuilt by decoding the chunk. The state that has to survive
both is `XORState`, what an iterator knows at the end of the chunk; `XORInv` ties the bytes and the
appender to it:

* the payload decodes, from any reader over it, to the samples appended so far and ends in that
  state (`Decodes`);
* the appender holds the same timestamp, value and delta, and a window in agreement
  (`AppenderSync`).

An append extends the payload by one field group (`sample_roundTrip`), so that the invariant is
kept (`XORInv.append`); rebuilding the appender reads the state off the iterator
(`XORInv.step_reopen`).
-/

namespace Prometheus.Chunkenc

open BitList List Nat

open BitVec hiding append_assoc

/-- A float sample. -/
structure Sample where
  t : BitVec 64
  v : BitVec 64
  deriving DecidableEq, Repr

/-! ### The model -/

structure XORChunk where
  b : BStream
  deriving DecidableEq, Repr

def newXORChunk : XORChunk := ⟨⟨[0, 0], 0⟩⟩

variable (c : XORChunk)

namespace XORChunk

def bytes : List (BitVec 8) := c.b.stream

def numSamples : ℕ := (bigEndianUint16 c.bytes).toNat

end XORChunk

structure XORAppender where
  t : BitVec 64
  v : BitVec 64
  tDelta : BitVec 64
  window : Window
  deriving DecidableEq, Repr

/-- The delta-of-delta field of `Append`. -/
def writeDod (b : BStream) (dod : BitVec 64) : BStream :=
  if dod = 0 then b.writeBit false
  else if bitRange dod 14 then
    -- The size code combined with 6 bits of dod, then the bottom 8 bits of dod.
    let b := b.writeByte (0b10 <<< 6 ||| ((dod.sshiftRight 8).setWidth 8 &&& (1 <<< 6 - 1)))
    b.writeByte (dod.setWidth 8)
  else if bitRange dod 17 then (b.writeBits 0b110 3).writeBits dod 17
  else if bitRange dod 20 then (b.writeBits 0b1110 4).writeBits dod 20
  else (b.writeBits 0b1111 4).writeBits dod 64

namespace XORAppender

variable (a : XORAppender)

def writeVDelta (b : BStream) (v : BitVec 64) : BStream × Window :=
  xorWrite b v a.v a.window

/-- What `Append` writes behind the header, and the delta it stores. -/
def writeSample (b : BStream) (num : BitVec 16) (t v : BitVec 64) :
    (BStream × Window) × BitVec 64 :=
  if num = 0 then
    (((b.writeBytes (putVarint t)).writeBits v 64, a.window), 0)
  else if num = 1 then
    let tDelta := t - a.t
    (a.writeVDelta (b.writeBytes (putUvarint tDelta)) v, tDelta)
  else
    let tDelta := t - a.t
    (a.writeVDelta (writeDod b (tDelta - a.tDelta)) v, tDelta)

def append (c : XORChunk) (t v : BitVec 64) : XORChunk × XORAppender :=
  let num := bigEndianUint16 c.bytes
  let ((b, window), tDelta) := a.writeSample c.b num t v
  (⟨b.putUint16 (num + 1)⟩, ⟨t, v, tDelta, window⟩)

end XORAppender

structure XORIterator where
  br : BStreamReader
  numTotal : BitVec 16
  numRead : BitVec 16
  t : BitVec 64
  val : BitVec 64
  window : Window
  tDelta : BitVec 64
  err : Option ReadError
  deriving DecidableEq, Repr

/-- The first sample: a varint and the raw value. -/
def readFirst : Rd (BitVec 64 × BitVec 64) := do
  let t ← readVarint
  let v ← BStreamReader.readBits 64
  return (t, v)

/-- The delta-of-delta field of `Next`. -/
def readDod : Rd (BitVec 64) := do
  let d ← readPrefixCode 4 0
  if d = 0b1111 then BStreamReader.readBits 64
  else
    let sz : ℕ := if d = 0b10 then 14 else if d = 0b110 then 17 else if d = 0b1110 then 20 else 0
    if sz ≠ 0 then
      return signedOf sz (← BStreamReader.readBitsFastFirst (BitVec.ofNat 8 sz))
    else return 0

namespace XORIterator

variable (it : XORIterator)

def readValue : ValueType × XORIterator :=
  match xorRead it.val it.window it.br with
  | (.error e, br) => (.valNone, { it with br := br, err := some e })
  | (.ok (val, window), br) =>
    (.valFloat, { it with br := br, val := val, window := window, numRead := it.numRead + 1 })

def next : ValueType × XORIterator :=
  if it.err.isSome ∨ it.numRead = it.numTotal then (.valNone, it)
  else if it.numRead = 0 then
    match readFirst it.br with
    | (.error e, br) => (.valNone, { it with br := br, err := some e })
    | (.ok (t, v), br) =>
      (.valFloat, { it with br := br, t := t, val := v, numRead := it.numRead + 1 })
  else if it.numRead = 1 then
    match readUvarint it.br with
    | (.error e, br) => (.valNone, { it with br := br, err := some e })
    | (.ok tDelta, br) => { it with br := br, tDelta := tDelta, t := it.t + tDelta }.readValue
  else
    match readDod it.br with
    | (.error e, br) => (.valNone, { it with br := br, err := some e })
    | (.ok dod, br) =>
      let tDelta := it.tDelta + dod
      { it with br := br, tDelta := tDelta, t := it.t + tDelta }.readValue

/-- `At`. -/
def sampleAt : Sample := ⟨it.t, it.val⟩

/-- The loop `for it.Next() != ValNone`: the samples passed and the iterator at its end. `none` if
the end is not reached within the given number of calls. -/
def drain : ℕ → XORIterator → Option (List Sample × XORIterator)
  | 0, _ => none
  | fuel + 1, it =>
    match it.next with
    | (.valNone, it) => some ([], it)
    | (_, it) => (drain fuel it).map fun (ss, last) => (it.sampleAt :: ss, last)

end XORIterator

namespace XORChunk

/-- An iterator over the chunk. A recycled iterator is `Reset`, a new one starts at
`math.MinInt64`. -/
def iterator (it : Option XORIterator) : XORIterator where
  br := newBReader (c.bytes.drop 2)
  numTotal := bigEndianUint16 c.bytes
  numRead := 0
  t := if it.isSome then 0 else 0x8000000000000000
  val := 0
  window := ⟨0, 0⟩
  tDelta := 0
  err := none

/-- `Appender`: iterate through the end and populate the appender via the iterator's state. The
iterator returns at most `numTotal` samples, so the loop has ended after one more call. -/
def appender : Option (Except ReadError XORAppender) :=
  let it := c.iterator none
  (it.drain (it.numTotal.toNat + 1)).map fun (_, it) =>
    match it.err with
    | some e => .error e
    | none => .ok {
        t := it.t
        v := it.val
        tDelta := it.tDelta
        window := if it.numTotal = 0 then ⟨0xff, it.window.trailing⟩ else it.window }

end XORChunk

/-! ### The delta-of-delta field -/

private lemma toNat_dodByte (x : BitVec 8) :
    (0b10 <<< 6 ||| (x &&& (1 <<< 6 - 1))).toNat = 128 + x.toNat % 64 := by
  revert x
  decide

variable (dod : BitVec 64)

private lemma toNat_dodHigh : ((dod.sshiftRight 8).setWidth 8).toNat = dod.toNat / 256 % 256 := by
  have hbyte : (dod.sshiftRight 8).setWidth 8 = (dod >>> 8).setWidth 8 := by
    ext i hi
    rw [getElem_setWidth, getElem_setWidth, getLsbD_sshiftRight, getLsbD_ushiftRight]
    simp [show ¬64 ≤ i by omega, show 8 + i < 64 by omega]
  rw [hbyte, toNat_setWidth, toNat_ushiftRight, shiftRight_eq_div_pow]

/-- The two bytes of the 14 bit case are the size code and the field. -/
private lemma appends_dod14 : Appends (fun b => (b.writeByte
        (0b10 <<< 6 ||| ((dod.sshiftRight 8).setWidth 8 &&& (1 <<< 6 - 1)))).writeByte
        (dod.setWidth 8)) ([true, false] ++ bitsOf 14 (fieldOf 14 dod).toNat) := by
  have happ := (appends_writeByte
    (0b10 <<< 6 ||| ((dod.sshiftRight 8).setWidth 8 &&& (1 <<< 6 - 1)))).comp
    (appends_writeByte (dod.setWidth 8))
  rw [toNat_dodByte, toNat_dodHigh, toNat_setWidth] at happ
  have hfield : (fieldOf 14 dod).toNat = dod.toNat / 256 % 256 % 64 * 2 ^ 8 +
    dod.toNat % 2 ^ 8 := by
    rw [toNat_fieldOf]
    omega
  have hlo : dod.toNat % 2 ^ 8 < 2 ^ 8 := mod_lt _ (by norm_num)
  rw [← bitsOf_mul_add hlo] at happ
  rw [show [true, false] = bitsOf 2 2 by decide, ← bitsOf_mul_add (by rw [hfield]; omega), hfield]
  have hword : 2 * 2 ^ 14 + (dod.toNat / 256 % 256 % 64 * 2 ^ 8 + dod.toNat % 2 ^ 8) =
      (128 + dod.toNat / 256 % 256 % 64) * 2 ^ 8 + dod.toNat % 2 ^ 8 := by ring
  rw [hword]
  exact happ

variable {code : List Bool}

private lemma reads_dodSized {d : BitVec 8} {sz : ℕ} {dod : BitVec 64}
    (hcode : Reads (readPrefixCode 4 0) code d) (hd : d ≠ 0b1111)
    (hsz : (if d = 0b10 then 14 else if d = 0b110 then 17 else if d = 0b1110 then 20 else 0) = sz)
    (hpos : 0 < sz) (hlt : sz < 64) (hrange : bitRange dod sz = true) :
    Reads readDod (code ++ bitsOf sz (fieldOf sz dod).toNat) dod := by
  have hn : (BitVec.ofNat 8 sz).toNat = sz := by
    rw [toNat_ofNat]
    omega
  refine hcode.bind ?_
  rw [if_neg hd]
  simp only [hsz]
  rw [if_pos (by omega)]
  have hread := (reads_field (n := BitVec.ofNat 8 sz) (by omega) (by omega) dod).map (signedOf sz)
  rwa [hn, signedOf_fieldOf hpos hlt hrange, ← bitsOf_mod (le_refl sz), ← toNat_fieldOf] at hread

private lemma reads_dodEscape :
    Reads readDod ([true, true, true, true] ++ bitsOf 64 (fieldOf 64 dod).toNat) dod := by
  have hcode : Reads (readPrefixCode 4 0) [true, true, true, true] 0b1111 :=
    reads_prefix_true (reads_prefix_true (reads_prefix_true (reads_prefix_true
      (reads_prefix_end 15))))
  refine hcode.bind ?_
  rw [if_pos rfl, toNat_fieldOf, mod_eq_of_lt dod.isLt]
  exact reads_readBits (by decide) (by decide) dod dod.isLt

private lemma appends_dodSized {u : BitVec 64} {n sz : ℕ}
    (hn : n ≤ 64) (hcode : bitsOf n u.toNat = code) (hsz : sz ≤ 64) :
    Appends (fun b => (b.writeBits u n).writeBits dod sz)
      (code ++ bitsOf sz (fieldOf sz dod).toNat) := by
  rw [← hcode]
  exact (appends_writeBits u hn).comp (appends_field dod hsz)

/-- Whichever size the writer picks for the delta of deltas, the reader finds it. -/
lemma dod_roundTrip : ∃ l, Appends (writeDod · dod) l ∧ Reads readDod l dod := by
  unfold writeDod
  by_cases h0 : dod = 0
  · have hcode : Reads (readPrefixCode 4 0) [false] 0 := reads_prefix_false 3 0
    refine ⟨[false], by simpa [h0] using appends_writeBit false, ?_⟩
    have hread : Reads readDod ([false] ++ []) 0 := hcode.bind (Reads.pure 0)
    rw [h0]
    exact hread
  simp only [h0, if_false]
  by_cases h14 : bitRange dod 14 = true
  · have hcode : Reads (readPrefixCode 4 0) [true, false] 0b10 :=
      reads_prefix_true (reads_prefix_false 2 1)
    simp only [h14, if_true]
    exact ⟨_, appends_dod14 dod,
      reads_dodSized hcode (by decide) (by decide) (by omega) (by omega) h14⟩
  simp only [h14, Bool.false_eq_true, if_false]
  by_cases h17 : bitRange dod 17 = true
  · have hcode : Reads (readPrefixCode 4 0) [true, true, false] 0b110 :=
      reads_prefix_true (reads_prefix_true (reads_prefix_false 1 3))
    simp only [h17, if_true]
    exact ⟨_, appends_dodSized dod (by omega) (by decide) (by omega),
      reads_dodSized hcode (by decide) (by decide) (by omega) (by omega) h17⟩
  simp only [h17, Bool.false_eq_true, if_false]
  by_cases h20 : bitRange dod 20 = true
  · have hcode : Reads (readPrefixCode 4 0) [true, true, true, false] 0b1110 :=
      reads_prefix_true (reads_prefix_true (reads_prefix_true (reads_prefix_false 0 7)))
    simp only [h20, if_true]
    exact ⟨_, appends_dodSized dod (by omega) (by decide) (by omega),
      reads_dodSized hcode (by decide) (by decide) (by omega) (by omega) h20⟩
  simp only [h20, Bool.false_eq_true, if_false]
  exact ⟨_, appends_dodSized dod (by omega) (by decide) (by omega), reads_dodEscape dod⟩

/-! ### One sample -/

/-- What an iterator carries from one sample to the next. -/
structure XORState where
  numRead : BitVec 16
  t : BitVec 64
  val : BitVec 64
  tDelta : BitVec 64
  window : Window

namespace XORState

/-- Before the first sample. -/
def init (t : BitVec 64) : XORState := ⟨0, t, 0, 0, ⟨0, 0⟩⟩

def sample (s : XORState) : Sample := ⟨s.t, s.val⟩

/-- Read one sample; what `Next` does when nothing goes wrong (`next_of_read`). -/
def read (s : XORState) : Rd XORState :=
  if s.numRead = 0 then
    readFirst >>= fun (t, v) => return { s with numRead := s.numRead + 1, t := t, val := v }
  else
    (if s.numRead = 1 then readUvarint else readDod >>= fun dod => return s.tDelta + dod) >>=
      fun tDelta => xorRead s.val s.window >>= fun (val, window) =>
        return ⟨s.numRead + 1, s.t + tDelta, val, tDelta, window⟩

end XORState

/-- The appender continues where an iterator in state `s` stops. Before the first sample only the
windows matter, and before the second the delta does not. -/
structure AppenderSync (a : XORAppender) (s : XORState) : Prop where
  t : s.numRead ≠ 0 → a.t = s.t
  v : s.numRead ≠ 0 → a.v = s.val
  tDelta : s.numRead ≠ 0 → s.numRead ≠ 1 → a.tDelta = s.tDelta
  window : WindowSync a.window s.window

private lemma first_roundTrip (t v : BitVec 64) :
    ∃ l, Appends (fun b => (b.writeBytes (putVarint t)).writeBits v 64) l ∧
      Reads readFirst l (t, v) := by
  have hv : Reads (BStreamReader.readBits 64) (bitsOf 64 v.toNat) v :=
    reads_readBits (by decide) (by decide) v v.isLt
  have happ := (appends_writeBytes (putVarint t)).comp (appends_writeBits v (n := 64) (by omega))
  exact ⟨_, happ, Reads.bind (reads_readVarint t) (hv.map fun v => (t, v))⟩

private lemma add_delta (x y : BitVec 64) : x + (y - x) = y := by
  rw [BitVec.add_comm, BitVec.sub_add_cancel]

variable {s : XORState} {a : XORAppender}

/-- The delta written for the sample at `t`, read back. -/
private lemma delta_roundTrip (h : AppenderSync a s) (h0 : s.numRead ≠ 0) (t : BitVec 64) :
    ∃ l, Appends (fun b => if s.numRead = 1 then b.writeBytes (putUvarint (t - a.t))
        else writeDod b (t - a.t - a.tDelta)) l ∧
      Reads (if s.numRead = 1 then readUvarint else readDod >>= fun dod => return s.tDelta + dod)
        l (t - a.t) := by
  by_cases h1 : s.numRead = 1
  · simp only [h1, if_true]
    exact ⟨_, appends_writeBytes _, reads_readUvarint _⟩
  simp only [h1, if_false]
  obtain ⟨l, happ, hread⟩ := dod_roundTrip (t - a.t - a.tDelta)
  refine ⟨l, happ, ?_⟩
  have hsum := hread.map (a.tDelta + ·)
  rwa [add_delta, h.tDelta h0 h1] at hsum

/-- Whatever the appender writes for a sample, an iterator in the same state reads it back, and
both go on in the same state. -/
theorem sample_roundTrip (h : AppenderSync a s) (t v : BitVec 64) : ∃ l window' tDelta' s',
      (∀ b, (a.writeSample b s.numRead t v).1.2 = window') ∧
      (∀ b, (a.writeSample b s.numRead t v).2 = tDelta') ∧
      Appends (fun b => (a.writeSample b s.numRead t v).1.1) l ∧ Reads s.read l s' ∧
      s'.numRead = s.numRead + 1 ∧ s'.sample = ⟨t, v⟩ ∧
      AppenderSync ⟨t, v, tDelta', window'⟩ s' := by
  by_cases h0 : s.numRead = 0
  · obtain ⟨l, happ, hread⟩ := first_roundTrip t v
    refine ⟨l, a.window, 0, { s with numRead := s.numRead + 1, t := t, val := v }, ?_⟩
    simp only [XORAppender.writeSample, XORState.read, h0, if_true]
    refine ⟨fun _ => trivial, fun _ => trivial, happ, ?_, trivial, rfl, ?_⟩
    · exact hread.map fun (t, v) => { s with numRead := 0 + 1, t := t, val := v }
    · exact ⟨fun _ => rfl, fun _ => rfl, fun _ h => absurd rfl h, h.window⟩
  obtain ⟨l₁, happ₁, hread₁⟩ := delta_roundTrip h h0 t
  obtain ⟨l₂, wa, wi, hwa, happ₂, hread₂, hsync⟩ := xor_roundTrip v a.v h.window
  have hwrite : ∀ b, a.writeSample b s.numRead t v =
      (xorWrite (if s.numRead = 1 then b.writeBytes (putUvarint (t - a.t))
        else writeDod b (t - a.t - a.tDelta)) v a.v a.window, t - a.t) := by
    intro b
    rw [XORAppender.writeSample, if_neg h0]
    split <;> rfl
  refine ⟨l₁ ++ l₂, wa, t - a.t, ⟨s.numRead + 1, t, v, t - a.t, wi⟩, ?_, ?_, ?_, ?_, rfl, rfl, ?_⟩
  · simp [hwrite, hwa]
  · simp [hwrite]
  · simp only [hwrite]
    exact happ₁.comp happ₂
  · rw [XORState.read, if_neg h0]
    rw [h.v h0] at hread₂
    refine hread₁.bind ?_
    have ht : s.t + (t - a.t) = t := by rw [← h.t h0, add_delta]
    rw [ht]
    exact hread₂.map fun p => (⟨s.numRead + 1, t, p.1, t - a.t, p.2⟩ : XORState)
  · exact ⟨fun _ => rfl, fun _ => rfl, fun _ _ => rfl, hsync⟩

/-! ### Iterating -/

variable {it : XORIterator}

namespace XORIterator

def state (it : XORIterator) : XORState := ⟨it.numRead, it.t, it.val, it.tDelta, it.window⟩

@[simp] lemma state_numRead (it : XORIterator) : it.state.numRead = it.numRead := rfl

/-- A readable sample is what `Next` goes to. -/
lemma next_of_read {br : BStreamReader} (herr : it.err = none)
    (hnum : it.numRead ≠ it.numTotal) (h : it.state.read it.br = (.ok s, br)) :
    ∃ it', it.next = (.valFloat, it') ∧ it'.state = s ∧ it'.br = br ∧ it'.err = none ∧
      it'.numTotal = it.numTotal ∧ it'.numRead = it.numRead + 1 := by
  have hgo : ¬(it.err.isSome ∨ it.numRead = it.numTotal) := by simp [herr, hnum]
  rw [next, if_neg hgo]
  by_cases h0 : it.numRead = 0
  · rw [XORState.read, state_numRead, if_pos h0] at h
    obtain ⟨⟨t, v⟩, r₁, hfirst, hpure⟩ := Rd.bind_eq_ok h
    obtain ⟨hs, rfl⟩ := Prod.mk.inj hpure
    refine ⟨{ it with br := r₁, t := t, val := v, numRead := it.numRead + 1 }, ?_,
      Except.ok.inj hs, rfl, herr, rfl, rfl⟩
    rw [if_pos h0, hfirst]
  rw [XORState.read, state_numRead, if_neg h0] at h
  obtain ⟨tDelta, r₁, hdelta, h⟩ := Rd.bind_eq_ok h
  obtain ⟨⟨val, window⟩, r₂, hxor, hpure⟩ := Rd.bind_eq_ok h
  obtain ⟨hs, rfl⟩ := Prod.mk.inj hpure
  have hvalue : readValue { it with br := r₁, tDelta := tDelta, t := it.t + tDelta } =
      (.valFloat, ⟨r₂, it.numTotal, it.numRead + 1, it.t + tDelta, val, window, tDelta,
        it.err⟩) := by
    simp only [state] at hxor
    rw [readValue, hxor]
  refine ⟨⟨r₂, it.numTotal, it.numRead + 1, it.t + tDelta, val, window, tDelta, it.err⟩, ?_,
    Except.ok.inj hs, rfl, herr, rfl, rfl⟩
  rw [if_neg h0, ← hvalue]
  by_cases h1 : it.numRead = 1
  · rw [if_pos h1] at hdelta
    rw [if_pos h1, hdelta]
  rw [if_neg h1] at hdelta
  obtain ⟨dod, r, hdod, hpure⟩ := Rd.bind_eq_ok hdelta
  obtain ⟨hd, rfl⟩ := Prod.mk.inj hpure
  rw [if_neg h1, hdod, ← Except.ok.inj hd]
  rfl

/-- From an iterator over a decodable string on, the loop passes exactly the decoded samples and
stops without an error in the last state. -/
lemma drain_of_decodes {l : List Bool} {ss : List XORState}
    (h : Decodes XORState.read it.state l ss) {rest : List Bool} (hbr : it.br.Rep (l ++ rest))
    (herr : it.err = none) (hnum : it.numRead.toNat + ss.length = it.numTotal.toNat) :
    ∃ last, it.drain (ss.length + 1) = some (ss.map XORState.sample, last) ∧
      last.state = ss.getLastD it.state ∧ last.err = none ∧ last.numTotal = it.numTotal ∧
      last.numRead = last.numTotal := by
  generalize hs : it.state = s at h
  induction h generalizing it with
  | nil s =>
    have hend : it.numRead = it.numTotal := eq_of_toNat_eq hnum
    refine ⟨it, ?_, hs, herr, rfl, hend⟩
    simp [drain, next, hend]
  | @cons s s' l l' ss head _ ih =>
    rw [length_cons] at hnum
    rw [append_assoc] at hbr
    obtain ⟨br, hread, hrest⟩ := head it.br (l' ++ rest) hbr
    have hlt : it.numRead ≠ it.numTotal := by
      intro heq
      rw [heq] at hnum
      omega
    obtain ⟨it', hnext, hstate, hbr', herr', htotal, hcount⟩ := next_of_read herr hlt (hs ▸ hread)
    have hsucc : it'.numRead.toNat = it.numRead.toNat + 1 := by
      rw [hcount, toNat_add]
      exact mod_eq_of_lt (by simp; omega)
    obtain ⟨last, hdrain, hlast, hend⟩ :=
      ih (hbr'.symm ▸ hrest) herr' (by rw [htotal]; omega) hstate
    refine ⟨last, ?_, ?_, hend.1, hend.2.1.trans htotal, hend.2.2⟩
    · have hsample : it'.sampleAt = s'.sample := by rw [← hstate]; rfl
      rw [length_cons, drain, hnext]
      simp [hdrain, hsample]
    · rw [hlast, getLastD_cons]

end XORIterator

/-! ### Runs -/

/-- What happens to a chunk in memory: a sample is appended, or the appender is dropped and another
one obtained. -/
inductive ChunkOp
  | append (t v : BitVec 64)
  | reopen

variable (ops : List ChunkOp)

/-- The samples appended by a run. -/
def ChunkOp.samples : List Sample :=
  ops.filterMap fun
    | .append t v => some ⟨t, v⟩
    | .reopen => none

namespace XORChunk

/-- The chunk with an appender for it; `none` if there is an error. -/
def reopen : Option (XORChunk × XORAppender) :=
  match c.appender with
  | some (.ok a) => some (c, a)
  | _ => none

def step : XORChunk × XORAppender → ChunkOp → Option (XORChunk × XORAppender)
  | (c, a), .append t v => some (a.append c t v)
  | (c, _), .reopen => c.reopen

/-- A new chunk and all that happens to it. -/
def run : Option (XORChunk × XORAppender) := do
  ops.foldlM step (← newXORChunk.reopen)

end XORChunk

/-- The chunk's payload decodes to the states `sts`. -/
structure XORChunk.Holds (c : XORChunk) (sts : List XORState) : Prop where
  length_lt : sts.length < 2 ^ 16
  payload : ∃ l, c.b.Rep (bitsOf 16 sts.length ++ l) ∧ Decodes XORState.read (.init 0) l sts

/-- The chunk holds the samples `ss`, and the appender continues it. -/
def XORInv (a : XORAppender) (ss : List Sample) : Prop :=
  ∃ sts : List XORState, c.Holds sts ∧ sts.map XORState.sample = ss ∧
    (sts.getLastD (.init 0)).numRead.toNat = sts.length ∧ AppenderSync a (sts.getLastD (.init 0))

variable {sts : List XORState}

/-- The first sample does not depend on the time a decoder starts with. -/
private lemma Decodes.init {l : List Bool}
    (h : Decodes XORState.read (.init 0) l sts) (t : BitVec 64) :
    Decodes XORState.read (.init t) l sts := by
  cases h with
  | nil => exact .nil _
  | cons head tail => exact .cons head tail

namespace XORChunk.Holds

variable {c : XORChunk} {sts : List XORState}

variable (h : c.Holds sts)
include h

lemma num_eq : bigEndianUint16 c.bytes = BitVec.ofNat 16 sts.length := by
  obtain ⟨l, hrep, -⟩ := h.payload
  have hnum : (BitVec.ofNat 16 sts.length).toNat = sts.length := by
    rw [toNat_ofNat, mod_eq_of_lt h.length_lt]
  exact (hnum.symm ▸ hrep).bigEndianUint16

lemma numSamples_eq : c.numSamples = sts.length := by
  rw [numSamples, h.num_eq, toNat_ofNat, mod_eq_of_lt h.length_lt]

/-- Iterating over a chunk, with a new or a recycled iterator. -/
lemma drain_eq (it : Option XORIterator) :
    ∃ last, (c.iterator it).drain (sts.length + 1) = some (sts.map XORState.sample, last) ∧
      last.state = sts.getLastD (c.iterator it).state ∧ last.err = none ∧
      last.numTotal = BitVec.ofNat 16 sts.length ∧ last.numRead = last.numTotal := by
  obtain ⟨l, hrep, hdec⟩ := h.payload
  have hbytes := (hrep.take (n := 2) (by simp)).2
  have hbr : (c.iterator it).br.Rep (l ++ replicate c.b.count false) :=
    hbytes ▸ rep_newBReader (c.b.stream.drop 2)
  have hdec' : Decodes XORState.read (c.iterator it).state l sts := hdec.init _
  obtain ⟨last, hdrain, hstate, herr, htotal, hend⟩ :=
    XORIterator.drain_of_decodes hdec' hbr rfl
      (by simpa [iterator, numSamples] using h.numSamples_eq.symm)
  exact ⟨last, hdrain, hstate, herr, htotal.trans h.num_eq, hend⟩

end XORChunk.Holds

/-- A rebuilt appender continues the chunk. -/
theorem XORChunk.Holds.reopen {c : XORChunk} (h : c.Holds sts)
    (hwindow : (sts.getLastD (.init 0)).window.Valid) :
    ∃ a, c.reopen = some (c, a) ∧ AppenderSync a (sts.getLastD (.init 0)) := by
  obtain ⟨last, hdrain, hstate, herr, htotal, -⟩ := h.drain_eq none
  have hfuel : (c.iterator none).numTotal.toNat = sts.length := h.numSamples_eq
  refine ⟨⟨last.t, last.val, last.tDelta,
    if last.numTotal = 0 then ⟨0xff, last.window.trailing⟩ else last.window⟩, ?_, ?_⟩
  · simp only [XORChunk.reopen, XORChunk.appender, hfuel, hdrain, Option.map_some, herr]
  cases sts with
  | nil =>
    have hzero : last.numTotal = 0 := htotal
    simp only [hzero, if_true]
    exact ⟨absurd rfl, absurd rfl, absurd rfl, hwindow, Or.inl rfl⟩
  | cons s sts =>
    have hpos : last.numTotal ≠ 0 := by
      intro h0
      have := congrArg BitVec.toNat (htotal.symm.trans h0)
      rw [toNat_ofNat, mod_eq_of_lt h.length_lt] at this
      simp at this
    rw [getLastD_cons] at hstate hwindow ⊢
    rw [← hstate] at hwindow ⊢
    rw [if_neg hpos]
    exact ⟨fun _ => rfl, fun _ => rfl, fun _ _ => rfl, .refl hwindow⟩

namespace XORInv

variable {c : XORChunk} {a : XORAppender} {ss : List Sample}

lemma init : ∃ a, newXORChunk.reopen = some (newXORChunk, a) ∧ XORInv newXORChunk a [] := by
  have hholds : newXORChunk.Holds [] :=
    ⟨by simp, [], ⟨by decide, by decide⟩, .nil _⟩
  obtain ⟨a, hopen, hsync⟩ := hholds.reopen WindowSync.fresh.valid
  exact ⟨a, hopen, [], hholds, rfl, rfl, hsync⟩

variable (h : XORInv c a ss)
include h

/-- An append extends the payload by the sample's fields and keeps the appender in step. -/
theorem append (hlen : ss.length + 1 < 2 ^ 16) (t v : BitVec 64) :
    XORInv (a.append c t v).1 (a.append c t v).2 (ss ++ [⟨t, v⟩]) := by
  obtain ⟨sts, hholds, rfl, hnum, hsync⟩ := h
  obtain ⟨l, hrep, hdec⟩ := hholds.payload
  obtain ⟨l', window', tDelta', s', hwindow, htDelta, happ, hread, hcount, hsample, hsync'⟩ :=
    sample_roundTrip hsync t v
  rw [length_map] at hlen
  have hnum' : bigEndianUint16 c.bytes = (sts.getLastD (.init 0)).numRead :=
    eq_of_toNat_eq (hholds.numSamples_eq.trans hnum.symm)
  have hsucc : ((sts.getLastD (.init 0)).numRead + 1).toNat = sts.length + 1 := by
    rw [toNat_add, hnum]
    exact mod_eq_of_lt hlen
  have hlast : (sts ++ [s']).getLastD (.init 0) = s' := by simp
  refine ⟨sts ++ [s'], ⟨by simpa using hlen, l ++ l', ?_,
    hdec.concat hread⟩, by simp [hsample], ?_, ?_⟩
  · have hput := (append_assoc _ l l' ▸ happ c.b _ hrep).putUint16 (by simp)
      ((sts.getLastD (.init 0)).numRead + 1)
    rw [hsucc] at hput
    rw [length_append, length_singleton]
    simpa only [XORAppender.append, hnum'] using hput
  · rw [hlast, hcount, hsucc, length_append, length_singleton]
  · simpa only [hlast, XORAppender.append, hnum', hwindow, htDelta] using hsync'

lemma step_reopen : ∃ a', c.reopen = some (c, a') ∧ XORInv c a' ss := by
  obtain ⟨sts, hholds, hss, hnum, hsync⟩ := h
  obtain ⟨a', hopen, hsync'⟩ := hholds.reopen hsync.window.valid
  exact ⟨a', hopen, sts, hholds, hss, hnum, hsync'⟩

/-- A whole run keeps the invariant. -/
lemma run (hlen : ss.length + (ChunkOp.samples ops).length < 2 ^ 16) :
    ∃ c' a', ops.foldlM XORChunk.step (c, a) = some (c', a') ∧
      XORInv c' a' (ss ++ ChunkOp.samples ops) := by
  induction ops generalizing c a ss with
  | nil => exact ⟨c, a, rfl, by simpa [ChunkOp.samples] using h⟩
  | cons op ops ih =>
    cases op with
    | append t v =>
      have hsamples : ChunkOp.samples (.append t v :: ops) = ⟨t, v⟩ :: ChunkOp.samples ops := rfl
      rw [hsamples, length_cons] at hlen
      obtain ⟨c', a', hrun, hinv⟩ := ih (h.append (by omega) t v) (by
        rw [length_append, length_singleton]
        omega)
      rw [append_assoc] at hinv
      exact ⟨c', a', hrun, hinv⟩
    | reopen =>
      have hsamples : ChunkOp.samples (.reopen :: ops) = ChunkOp.samples ops := rfl
      rw [hsamples] at hlen ⊢
      obtain ⟨a₁, hopen, hinv₁⟩ := h.step_reopen
      obtain ⟨c', a', hrun, hinv⟩ := ih hinv₁ hlen
      refine ⟨c', a', ?_, hinv⟩
      rw [foldlM_cons, XORChunk.step, hopen]
      exact hrun

end XORInv

/-- For every run with at most 65535 appends, the chunk holds exactly the appended samples: the
iterator returns them in order, bit for bit, and then ends without an error. -/
theorem xorChunk_roundTrip (ops : List ChunkOp) (hlen : (ChunkOp.samples ops).length ≤ 65535) :
    ∃ c a, XORChunk.run ops = some (c, a) ∧ c.numSamples = (ChunkOp.samples ops).length ∧
      ∀ it, ∃ last,
        (c.iterator it).drain ((ChunkOp.samples ops).length + 1) =
          some (ChunkOp.samples ops, last) ∧
        last.err = none ∧ last.next = (.valNone, last) := by
  obtain ⟨a₀, hopen, hinit⟩ := XORInv.init
  obtain ⟨c, a, hrun, sts, hholds, hss, -⟩ := hinit.run ops (by simpa using by omega)
  rw [nil_append] at hss
  rw [← hss, length_map]
  refine ⟨c, a, ?_, hholds.numSamples_eq, fun it => ?_⟩
  · rw [XORChunk.run, hopen]
    exact hrun
  · obtain ⟨last, hdrain, -, herr, -, hend⟩ := hholds.drain_eq it
    exact ⟨last, hdrain, herr, by simp [XORIterator.next, hend]⟩

/-- A run over an appender dropped in between. -/
theorem xorChunk_roundTrip_three : ∃ c a,
    XORChunk.run [.append 1 7, .reopen, .append (-5) 7, .append 2 0] = some (c, a) ∧
      c.numSamples = 3 := by
  obtain ⟨c, a, hrun, hnum, -⟩ := xorChunk_roundTrip
    [.append 1 7, .reopen, .append (-5) 7, .append 2 0] (by decide)
  exact ⟨c, a, hrun, hnum⟩

end Prometheus.Chunkenc
