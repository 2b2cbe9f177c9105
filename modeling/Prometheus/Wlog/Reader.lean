import Prometheus.Lib.Source
import Prometheus.Wlog.Format

/-!
# Reading the write-ahead log

`Reader` of `tsdb/wlog/reader.go` and `segmentBufReader` of `tsdb/wlog/wlog.go`.

The reader only reads with `io.ReadFull`, so what it does depends on the bytes that its source
streams and not on how they are cut into pieces (`readAll_sim`). And a call of `Next` that returns a
record depends only on the bytes that it reads (`next_true`).
-/

namespace Prometheus.Wlog

open BitList List Source Nat

variable {σ : Type}

/-! ### Reader -/

/-- What could not be read: "read first header byte: %w", "read remaining zeros: %w" and
"read remaining header: %w"; the error from reading the data is returned as it is. -/
inductive ReadPart
  | firstHeaderByte
  | remainingZeros
  | remainingHeader
  | data
deriving DecidableEq

inductive ReaderError
  | read (what : ReadPart) (e : Source.Error)
  /-- "unexpected non-zero byte in padded page" -/
  | nonZeroByte
  /-- "invalid record size %d" -/
  | invalidRecordSize (length : ℕ)
  /-- "unexpected checksum %x, expected %x" -/
  | unexpectedChecksum (c crc : ℕ)
  | record (e : RecordError)
  /-- The error of `compression.Decode`. -/
  | decode
  /-- "last record is torn" -/
  | torn
deriving DecidableEq

/-- `errors.Is(err, io.EOF)`. -/
def ReaderError.isEOF : ReaderError → Bool
  | .read _ .eof => true
  | _ => false

structure Reader (σ : Type) where
  rdr : σ
  err : Option ReaderError
  /-- `rec` -/
  record : Bytes
  total : ℕ
  curRecTyp : RecType

/-- `NewReader`. -/
def newReader (s : σ) : Reader σ := ⟨s, none, [], 0, .pageTerm⟩

/-- Code that uses a reader and may return an error. -/
abbrev ReaderM (σ : Type) := ExceptT ReaderError (StateM (Reader σ))

namespace Reader

variable (P : Params) (src : Source σ (BitVec 8))

/-- `io.ReadFull` with the handling of its error, and counting the bytes. -/
def full (what : ReadPart) (n : ℕ) : ReaderM σ Bytes := fun r =>
  match src.readFull n r.rdr with
  | (.ok b, s) => (.ok b, { r with rdr := s, total := r.total + n })
  | (.error e, s) => (.error (.read what e), { r with rdr := s })

def getTotal : ReaderM σ ℕ := fun r => (.ok r.total, r)

def setCurRecTyp (typ : RecType) : ReaderM σ Unit := fun r => (.ok (), { r with curRecTyp := typ })

def setRec (rec : Bytes) : ReaderM σ Unit := fun r => (.ok (), { r with record := rec })

/-- What follows the first byte of a page's rest: zeros up to the end of the page. -/
def skipPage : ReaderM σ Unit := do
  let total ← getTotal
  let k := pageSize - total % pageSize
  if k = pageSize then pure ()
  else do
    let zs ← full src .remainingZeros k
    if zs.any (· != 0) then throw .nonZeroByte else pure ()

/-- What follows the first byte of a fragment: length, checksum and data. -/
def readPart : ReaderM σ Bytes := do
  let hdr ← full src .remainingHeader (recordHeaderSize - 1)
  let length := ofBytes (hdr.take 2)
  let crc := ofBytes (hdr.drop 2)
  if length > pageSize - recordHeaderSize then throw (.invalidRecordSize length)
  else do
    let part ← full src .data length
    if (P.crc part).toNat ≠ crc then throw (.unexpectedChecksum (P.crc part).toNat crc)
    else pure part

/-- How a turn of the loop in `nextNew` ends: with a record, or with another turn. -/
inductive Turn
  | done
  | again (i : ℕ) (precomprBuf : Bytes)

/-- One turn of the loop in `nextNew`. -/
def turn (i : ℕ) (precomprBuf : Bytes) : ReaderM σ Turn := do
  let b ← full src .firstHeaderByte 1
  let hdr0 := b.headD 0
  let typ := recTypeFromHeader hdr0
  setCurRecTyp typ
  if typ = .pageTerm then do
    skipPage src
    pure (.again i precomprBuf)
  else do
    let part ← readPart P src
    match validateRecord typ i with
    | some e => throw (.record e)
    | none =>
      if typ = .last ∨ typ = .full then
        match P.codec.decode (compressionFromHeader hdr0) (precomprBuf ++ part) with
        | none => throw .decode
        | some rec => do
          setRec rec
          pure .done
      else pure (.again (i + 1) (precomprBuf ++ part))

/-- The loop in `nextNew`. Each turn reads something, so that one turn more than the source can be
read is enough. -/
def nextLoop : ℕ → ℕ → Bytes → ReaderM σ Unit
  | 0, _, _ => throw (.read .firstHeaderByte .eof)
  | fuel + 1, i, precomprBuf => do
    match ← turn P src i precomprBuf with
    | .done => pure ()
    | .again i precomprBuf => nextLoop fuel i precomprBuf

def nextNew : ReaderM σ Unit := fun r => nextLoop P src (src.left r.rdr + 1) 0 [] r

/-- What `Next` makes of the result of `nextNew`. -/
def finish (res : Except ReaderError Unit × Reader σ) : Bool × Reader σ :=
  match res with
  | (.ok _, r) => (true, { r with err := none })
  | (.error e, r) =>
    if e.isEOF then
      if r.curRecTyp = .first ∨ r.curRecTyp = .middle then (false, { r with err := some .torn })
      else (false, r)
    else (false, { r with err := some e })

/-- `Next`. -/
def next (r : Reader σ) : Bool × Reader σ := finish (nextNew P src r)

/-- `for r.Next()`: the records, each with the number of bytes processed so far, and the reader that
is left. -/
def readLoop : ℕ → Reader σ → List (Bytes × ℕ) × Reader σ
  | 0, r => ([], r)
  | fuel + 1, r =>
    match next P src r with
    | (false, r) => ([], r)
    | (true, r) =>
      let (outs, r') := readLoop fuel r
      ((r.record, r.total) :: outs, r')

/-- `Next` until it fails: the records, and the reader then. -/
def readAll (s : σ) : List (Bytes × ℕ) × Reader σ := readLoop P src (src.left s + 1) (newReader s)

end Reader

/-! ### segmentBufReader -/

/-- `segmentBufReader`. A segment is its content. -/
structure SegmentBufReader where
  buf : Source.BufReader (BitVec 8)
  segs : List Bytes
  cur : ℕ
  off : ℕ

/-- `NewSegmentBufReader`. -/
def newSegmentBufReader (segs : List Bytes) : SegmentBufReader :=
  ⟨Source.newReaderSize (segs.headD []) (16 * pageSize), segs, 0, 0⟩

namespace SegmentBufReader

/-- `Read` into a slice of `n` bytes. -/
def read (n : ℕ) (r : SegmentBufReader) : Bytes × Bool × SegmentBufReader :=
  if r.segs.length = 0 then ([], true, r)
  else
    let (b, eof, buf) := r.buf.read n
    let r := { r with buf := buf, off := r.off + b.length }
    if ¬ eof then (b, false, r)
    else if r.off % pageSize ≠ 0 then
      -- as many zeros as there is room for, up to the end of the page
      let i := min (n - b.length) (pageSize - r.off % pageSize)
      (b ++ zeros i, false, { r with off := r.off + i })
    else if r.cur + 1 ≥ r.segs.length then (b, true, r)
    else
      (b, false, { r with
        cur := r.cur + 1, off := 0,
        buf := Source.newReaderSize (r.segs.getD (r.cur + 1) []) (16 * pageSize) })

/-- How many zeros fill the last page of a segment with `n` bytes. -/
def padding (n : ℕ) : ℕ := (pageSize - n % pageSize) % pageSize

/-- A segment as it is read: filled up to a whole page. -/
def padded (seg : Bytes) : Bytes := seg ++ zeros (padding seg.length)

/-- What is left to read. -/
def rest (r : SegmentBufReader) : Bytes :=
  r.buf.rest ++ zeros (padding (r.off + r.buf.rest.length)) ++
    (r.segs.drop (r.cur + 1)).flatMap padded

end SegmentBufReader

def segmentSource : Source SegmentBufReader (BitVec 8) where
  read := SegmentBufReader.read
  left r := r.rest.length + (r.segs.length - r.cur)

/-- Read segments to the end: the records, and the error of the reader. -/
def readSegments (P : Params) (segs : List Bytes) : List Bytes × Option ReaderError :=
  let (outs, r) := Reader.readAll P segmentSource (newSegmentBufReader segs)
  (outs.map Prod.fst, r.err)

/-! ### The reader and its source -/

variable {fuel : ℕ} {e : ReaderError}

namespace Reader

variable {τ α β : Type}

/-- The same reader with another source. -/
def on (r : Reader σ) (s : τ) : Reader τ := ⟨s, r.err, r.record, r.total, r.curRecTyp⟩

lemma bind_ok {m : ReaderM σ α} {f : α → ReaderM σ β} {r r' : Reader σ} {a : α}
    (h : m r = (.ok a, r')) : (m >>= f) r = f a r' := by
  show (ExceptT.bindCont f (m r).1) (m r).2 = _
  rw [h]
  rfl

lemma bind_error {m : ReaderM σ α} {f : α → ReaderM σ β} {r r' : Reader σ}
    (h : m r = (.error e, r')) : (m >>= f) r = (.error e, r') := by
  show (ExceptT.bindCont f (m r).1) (m r).2 = _
  rw [h]
  rfl

lemma getTotal_bind (f : ℕ → ReaderM σ β) (r : Reader σ) : (getTotal >>= f) r = f r.total r := rfl

lemma setCurRecTyp_bind (typ : RecType) (f : Unit → ReaderM σ β) (r : Reader σ) :
    (setCurRecTyp typ >>= f) r = f () { r with curRecTyp := typ } := rfl

/-- `m` on a source that streams `bs` does what `m'` does on `bs`. -/
def Sim (R : σ → Bytes → Prop) (m : ReaderM σ α) (m' : ReaderM Bytes α) : Prop :=
  ∀ r bs, R r.rdr bs → ∃ bs', R (m r).2.rdr bs' ∧ m' (r.on bs) = ((m r).1, (m r).2.on bs')

/-- Code that does not read, on a source and on a list. -/
def Silent (m : ReaderM σ α) (m' : ReaderM Bytes α) : Prop :=
  ∀ r, (m r).2.rdr = r.rdr ∧ (m r).2.total = r.total ∧ ∀ bs, m' (r.on bs) = ((m r).1, (m r).2.on bs)

/-- What holds of code that does not read and of `full`, and is kept by sequencing. -/
structure Compositional (src : Source σ (BitVec 8))
    (Q : ∀ {α : Type}, ReaderM σ α → ReaderM Bytes α → Prop) : Prop where
  silent : ∀ {α : Type} {m : ReaderM σ α} {m' : ReaderM Bytes α}, Silent m m' → Q m m'
  bind : ∀ {α β : Type} {m : ReaderM σ α} {m' : ReaderM Bytes α} {f : α → ReaderM σ β}
    {f' : α → ReaderM Bytes β}, Q m m' → (∀ a, Q (f a) (f' a)) → Q (m >>= f) (m' >>= f')
  full : ∀ what n, Q (full src what n) (full ofList what n)

namespace Compositional

variable {src : Source σ (BitVec 8)} {Q : ∀ {α : Type}, ReaderM σ α → ReaderM Bytes α → Prop}
  (h : Compositional src Q) (P : Params)
include h

lemma quiet {α : Type} {m : ReaderM σ α} {m' : ReaderM Bytes α}
    (hm : Silent m m' := by exact fun _ => ⟨rfl, rfl, fun _ => rfl⟩) : Q m m' :=
  h.silent hm

lemma skipPage : Q (skipPage src) (skipPage ofList) := by
  refine h.bind h.quiet fun total => ?_
  dsimp only
  split_ifs
  · exact h.quiet
  · refine h.bind (h.full _ _) fun zs => ?_
    split_ifs <;> exact h.quiet

lemma readPart : Q (readPart P src) (readPart P ofList) := by
  refine h.bind (h.full _ _) fun hdr => ?_
  dsimp only
  split_ifs
  · exact h.quiet
  · refine h.bind (h.full _ _) fun part => ?_
    split_ifs <;> exact h.quiet

/-- A turn reads the first byte of a header, and then it does what is given by this byte. -/
lemma turn (i : ℕ) (buf : Bytes) : ∃ f f', (∀ b, Q (f b) (f' b)) ∧
    turn P src i buf = Reader.full src .firstHeaderByte 1 >>= f ∧
    Reader.turn P ofList i buf = Reader.full ofList .firstHeaderByte 1 >>= f' := by
  refine ⟨_, _, fun b => h.bind h.quiet fun _ => ?_, rfl, rfl⟩
  split
  · exact h.bind h.skipPage fun _ => h.quiet
  refine h.bind (h.readPart P) fun part => ?_
  split
  · exact h.quiet
  split
  · split <;> exact h.quiet
  · exact h.quiet

end Compositional

lemma Sim.bind {R : σ → Bytes → Prop} {m : ReaderM σ α} {m' : ReaderM Bytes α} {f : α → ReaderM σ β}
    {f' : α → ReaderM Bytes β} (hm : Sim R m m') (hf : ∀ a, Sim R (f a) (f' a)) :
    Sim R (m >>= f) (m' >>= f') := by
  intro r bs hR
  obtain ⟨bs', hR', hm'⟩ := hm r bs hR
  obtain ⟨res, r', hres⟩ : ∃ res r', m r = (res, r') := ⟨_, _, rfl⟩
  rw [hres] at hR' hm'
  cases res with
  | error e =>
    rw [bind_error hres, bind_error hm']
    exact ⟨bs', hR', rfl⟩
  | ok a =>
    rw [bind_ok hres, bind_ok hm']
    exact hf a r' bs' hR'

section

variable {src : Source σ (BitVec 8)} {R : σ → Bytes → Prop} (hsrc : src.Streams R)
include hsrc

lemma sim_full (what : ReadPart) (n : ℕ) : Sim R (full src what n) (full ofList what n) := by
  intro r bs hR
  obtain ⟨h1, h2⟩ := readFull_sim hsrc n hR
  obtain ⟨res, s', hres⟩ : ∃ res s', src.readFull n r.rdr = (res, s') := ⟨_, _, rfl⟩
  obtain ⟨res', bs', hres'⟩ : ∃ res bs', takeFull n bs = (res, bs') := ⟨_, _, rfl⟩
  rw [hres, hres'] at h1 h2
  obtain rfl : res = res' := h1
  have hlist : ofList.readFull n (r.on bs).rdr = (res, bs') :=
    (readFull_ofList n bs).trans hres'
  unfold full
  rw [hres, hlist]
  cases res <;> exact ⟨bs', h2, rfl⟩

lemma compositional_sim : Compositional src (Sim R) where
  silent hm r bs hR := ⟨bs, (hm r).1.symm ▸ hR, (hm r).2.2 bs⟩
  bind := .bind
  full := sim_full hsrc

lemma sim_turn (P : Params) (i : ℕ) (buf : Bytes) :
    Sim R (turn P src i buf) (turn P ofList i buf) := by
  obtain ⟨f, f', hf, heq, heq'⟩ := (compositional_sim hsrc).turn P i buf
  rw [heq, heq']
  exact .bind (sim_full hsrc _ _) hf

end

/-- `m` reads at least `k` bytes if it succeeds, and what follows them does not matter. -/
def Local (k : ℕ) (m : ReaderM Bytes α) : Prop :=
  ∀ r a r', m r = (.ok a, r') → ∃ c : Bytes, k ≤ c.length ∧ r.rdr = c ++ r'.rdr ∧
    ∀ rest, m (r.on (c ++ rest)) = (.ok a, r'.on rest)

namespace Local

variable {m : ReaderM Bytes α}

lemma bind {k : ℕ} {f : α → ReaderM Bytes β} (hm : Local k m)
    (hf : ∀ a, Local 0 (f a)) : Local k (m >>= f) := by
  intro r b r'' h
  obtain ⟨res, r', hres⟩ : ∃ res r', m r = (res, r') := ⟨_, _, rfl⟩
  cases res with
  | error e =>
    rw [bind_error hres] at h
    cases h
  | ok a =>
    rw [bind_ok hres] at h
    obtain ⟨c, hk, hc, hlocal⟩ := hm r a r' hres
    obtain ⟨c', -, hc', hlocal'⟩ := hf a r' b r'' h
    refine ⟨c ++ c', ?_, ?_, fun rest => ?_⟩
    · rw [length_append]
      omega
    · rw [hc, hc', append_assoc]
    · rw [append_assoc, bind_ok (hlocal _)]
      exact hlocal' rest

lemma mono {k : ℕ} (hm : Local k m) : Local 0 m := by
  intro r a r' h
  obtain ⟨c, -, hc⟩ := hm r a r' h
  exact ⟨c, zero_le _, hc⟩

end Local

variable (what : ReadPart) (n : ℕ)

lemma full_ofList_append {n : ℕ} {c : Bytes} (hc : c.length = n) (rest : Bytes)
    (r : Reader Bytes) (hr : r.rdr = c ++ rest) :
    full ofList what n r = (.ok c, { r with rdr := rest, total := r.total + n }) := by
  unfold full
  rw [readFull_ofList, hr, takeFull_append hc]

lemma local_full : Local n (full ofList what n) := by
  intro r b r' h
  have hle : n ≤ r.rdr.length := by
    by_contra hlt
    unfold full at h
    rw [readFull_ofList, takeFull, if_neg hlt] at h
    cases h
  have hlen : (r.rdr.take n).length = n := length_take_of_le hle
  rw [full_ofList_append what hlen (r.rdr.drop n) r (take_append_drop n _).symm] at h
  cases h
  exact ⟨r.rdr.take n, hlen.ge, (take_append_drop n _).symm, fun rest =>
    full_ofList_append what hlen rest _ rfl⟩

lemma compositional_local : Compositional ofList fun m _ => Local 0 m where
  silent {_ m m'} hm r a r' h := by
    have hrdr := (hm r).1
    have hsame : m' = m := funext fun r => ((hm r).2.2 r.rdr).trans (by rw [← (hm r).1]; rfl)
    subst hsame
    rw [h] at hrdr
    refine ⟨[], le_refl _, hrdr.symm, fun rest => ?_⟩
    rw [nil_append, (hm r).2.2 rest, h]
  bind := .bind
  full what n := (local_full what n).mono

variable (P : Params) (i : ℕ) (buf : Bytes)

lemma local_turn : Local 1 (turn P ofList i buf) := by
  obtain ⟨f, -, hf, heq, -⟩ := compositional_local.turn P i buf
  rw [heq]
  exact .bind (local_full _ _) hf

/-! ### Whole runs -/

/-- The loop of `nextNew` on a list, with as many turns as there can be. -/
def nextList (P : Params) (i : ℕ) (buf : Bytes) : ReaderM Bytes Unit := fun r =>
  nextLoop P Source.ofList (r.rdr.length + 1) i buf r

section

variable {src : Source σ (BitVec 8)} {R : σ → Bytes → Prop} (hsrc : src.Streams R) (P : Params)

include hsrc in
lemma sim_nextLoop {fuel' : ℕ} {r : Reader σ} {bs : Bytes} (hR : R r.rdr bs)
    (hfuel : bs.length < fuel) (hfuel' : bs.length < fuel') (i : ℕ) (buf : Bytes) :
    ∃ bs', R (nextLoop P src fuel i buf r).2.rdr bs' ∧
      nextLoop P ofList fuel' i buf (r.on bs) =
        ((nextLoop P src fuel i buf r).1, (nextLoop P src fuel i buf r).2.on bs') := by
  induction fuel generalizing fuel' i buf r bs with
  | zero => omega
  | succ fuel ih =>
    obtain ⟨fuel', rfl⟩ : ∃ f, fuel' = f + 1 := ⟨fuel' - 1, by omega⟩
    obtain ⟨bs', hR', hturn'⟩ := sim_turn hsrc P i buf r bs hR
    obtain ⟨res, r', hturn⟩ : ∃ res r', turn P src i buf r = (res, r') := ⟨_, _, rfl⟩
    rw [hturn] at hR' hturn'
    rw [nextLoop, nextLoop]
    cases res with
    | error e =>
      rw [bind_error hturn, bind_error hturn']
      exact ⟨bs', hR', rfl⟩
    | ok t =>
      rw [bind_ok hturn, bind_ok hturn']
      cases t with
      | done => exact ⟨bs', hR', rfl⟩
      | again i' buf' =>
        -- a turn reads something, so that there is one turn less to go
        obtain ⟨c, hpos, hc, -⟩ := local_turn P i buf _ _ _ hturn'
        have hlen : bs.length = c.length + bs'.length := by
          rw [← length_append]
          exact congrArg length hc
        exact ih hR' (by omega) (by omega) i' buf'

lemma nextLoop_eq_nextList {r : Reader Bytes} (h : r.rdr.length < fuel) (i : ℕ)
    (buf : Bytes) : nextLoop P ofList fuel i buf r = nextList P i buf r := by
  obtain ⟨_, rfl, heq⟩ :=
    sim_nextLoop ofList_streams P rfl (lt_succ_self _) h i buf
  exact heq

end

variable {P : Params} {i : ℕ} {buf : Bytes} {r r' : Reader Bytes}

lemma nextList_error
    (h : turn P ofList i buf r = (.error e, r')) : nextList P i buf r = (.error e, r') :=
  bind_error h

/-- At the end of the bytes. -/
lemma nextList_end {r : Reader Bytes} (hr : r.rdr = []) :
    nextList P i buf r = (.error (.read .firstHeaderByte .eof), r) := by
  refine nextList_error (bind_error ?_)
  unfold full
  rw [readFull_ofList, hr, show r = { r with rdr := [] } by rw [← hr]]
  rfl

lemma nextList_done
    (h : turn P ofList i buf r = (.ok .done, r')) : nextList P i buf r = (.ok (), r') :=
  bind_ok h

lemma nextList_again {i i' : ℕ} {buf buf' : Bytes}
    (h : turn P ofList i buf r = (.ok (.again i' buf'), r')) :
    nextList P i buf r = nextList P i' buf' r' := by
  obtain ⟨c, hpos, hc, -⟩ := local_turn P i buf _ _ _ h
  have hlen : r.rdr.length = c.length + r'.rdr.length := by rw [hc, length_append]
  exact (bind_ok h).trans (nextLoop_eq_nextList P (by omega) i' buf')

/-- Induction over the turns. -/
lemma nextList_induction {Q : ℕ → Bytes → Reader Bytes →
    Except ReaderError Unit × Reader Bytes → Prop}
    (error : ∀ {i buf r e r'}, turn P ofList i buf r = (.error e, r') → Q i buf r (.error e, r'))
    (done : ∀ {i buf r r'}, turn P ofList i buf r = (.ok .done, r') → Q i buf r (.ok (), r'))
    (again : ∀ {i buf r i' buf' r'}, turn P ofList i buf r = (.ok (.again i' buf'), r') →
      Q i' buf' r' (nextList P i' buf' r') → Q i buf r (nextList P i' buf' r'))
    (i : ℕ) (buf : Bytes) (r : Reader Bytes) : Q i buf r (nextList P i buf r) := by
  generalize hn : r.rdr.length = n
  induction n using Nat.strong_induction_on generalizing i buf r with
  | _ n ih =>
    obtain ⟨res, r', hturn⟩ : ∃ res r', turn P ofList i buf r = (res, r') := ⟨_, _, rfl⟩
    match res with
    | .error e =>
      rw [nextList_error hturn]
      exact error hturn
    | .ok .done =>
      rw [nextList_done hturn]
      exact done hturn
    | .ok (.again i' buf') =>
      rw [nextList_again hturn]
      obtain ⟨c, hpos, hc, -⟩ := local_turn P i buf _ _ _ hturn
      have hlen : r.rdr.length = c.length + r'.rdr.length := by rw [hc, length_append]
      exact again hturn (ih r'.rdr.length (by omega) i' buf' r' rfl)

variable (P i buf)

lemma local_nextList : Local 1 (nextList P i buf) := by
  intro r u r'' h
  induction i, buf, r using nextList_induction with
  | error => cases h
  | done hturn =>
    cases h
    obtain ⟨c, hpos, hc, hlocal⟩ := local_turn P _ _ _ _ _ hturn
    exact ⟨c, hpos, hc, fun rest => nextList_done (hlocal rest)⟩
  | again hturn ih =>
    obtain ⟨c, hpos, hc, hlocal⟩ := local_turn P _ _ _ _ _ hturn
    obtain ⟨c', -, hc', hlocal'⟩ := ih h
    refine ⟨c ++ c', ?_, ?_, fun rest => ?_⟩
    · rw [length_append]
      omega
    · rw [hc, hc', append_assoc]
    · rw [append_assoc, nextList_again (hlocal _)]
      exact hlocal' rest

variable {P i buf}

lemma next_ofList (P : Params) (r : Reader Bytes) :
    next P ofList r = finish (nextList P 0 [] r) := rfl

lemma finish_on (res : Except ReaderError Unit) (r : Reader σ) (s : τ) :
    finish (res, r.on s) = ((finish (res, r)).1, (finish (res, r)).2.on s) := by
  cases res with
  | ok _ => rfl
  | error e =>
    unfold finish
    dsimp only [on]
    split_ifs <;> rfl

lemma finish_rdr (res : Except ReaderError Unit × Reader σ) : (finish res).2.rdr = res.2.rdr := by
  unfold finish
  split
  · rfl
  · split_ifs <;> rfl

lemma finish_true {res : Except ReaderError Unit × Reader σ} {r : Reader σ}
    (h : finish res = (true, r)) : res.1 = .ok () ∧ r = { res.2 with err := none } := by
  obtain ⟨res, r'⟩ := res
  cases res with
  | ok _ =>
    cases h
    exact ⟨rfl, rfl⟩
  | error e =>
    unfold finish at h
    dsimp only at h
    split_ifs at h <;> cases h

/-- What `Next` does if there is another record, and what follows the record does not matter. -/
theorem next_true (h : next P ofList r = (true, r')) :
    ∃ c : Bytes, 1 ≤ c.length ∧ r.rdr = c ++ r'.rdr ∧
      ∀ rest, next P ofList (r.on (c ++ rest)) = (true, r'.on rest) := by
  obtain ⟨hok, rfl⟩ := finish_true h
  obtain ⟨c, hpos, hc, hlocal⟩ := local_nextList P 0 [] r () _ (Prod.ext hok rfl)
  refine ⟨c, hpos, hc, fun rest => ?_⟩
  rw [next_ofList, hlocal]
  rfl

section

variable {src : Source σ (BitVec 8)} {R : σ → Bytes → Prop} (hsrc : src.Streams R) (P : Params)
  {bs : Bytes}
include hsrc

lemma sim_next {r : Reader σ} (hR : R r.rdr bs) :
    ∃ bs', R (next P src r).2.rdr bs' ∧
      next P ofList (r.on bs) = ((next P src r).1, (next P src r).2.on bs') := by
  have hle := hsrc.length_le hR
  obtain ⟨bs', hR', heq⟩ := sim_nextLoop hsrc P hR (lt_succ_of_le hle) (lt_succ_self _) 0 []
  refine ⟨bs', ?_, ?_⟩
  · rw [next, finish_rdr]
    exact hR'
  · rw [next_ofList, next]
    exact (congrArg finish heq).trans (finish_on _ _ _)

lemma sim_readLoop {fuel' : ℕ} {r : Reader σ} (hR : R r.rdr bs)
    (hfuel : bs.length < fuel) (hfuel' : bs.length < fuel') :
    ∃ bs', R (readLoop P src fuel r).2.rdr bs' ∧
      readLoop P ofList fuel' (r.on bs) =
        ((readLoop P src fuel r).1, (readLoop P src fuel r).2.on bs') := by
  induction fuel generalizing fuel' r bs with
  | zero => omega
  | succ fuel ih =>
    obtain ⟨fuel', rfl⟩ : ∃ f, fuel' = f + 1 := ⟨fuel' - 1, by omega⟩
    obtain ⟨bs', hR', hnext'⟩ := sim_next hsrc P hR
    obtain ⟨ok, r', hnext⟩ : ∃ ok r', next P src r = (ok, r') := ⟨_, _, rfl⟩
    rw [hnext] at hR' hnext'
    rw [readLoop, readLoop, hnext, hnext']
    cases ok with
    | false => exact ⟨bs', hR', rfl⟩
    | true =>
      -- a record takes at least one byte, so that there is one record less to go
      have hlen : bs'.length < bs.length := by
        obtain ⟨c, hpos, hc, -⟩ := next_true hnext'
        have : bs.length = c.length + bs'.length := by
          rw [← length_append]
          exact congrArg length hc
        omega
      obtain ⟨bs'', hR'', heq⟩ := ih hR' (show bs'.length < fuel by omega)
        (show bs'.length < fuel' by omega)
      refine ⟨bs'', hR'', ?_⟩
      simp only [heq]
      rfl

/-- What is read depends on the bytes that the source streams. -/
theorem readAll_sim {s : σ} (hR : R s bs) :
    ∃ bs', R (readAll P src s).2.rdr bs' ∧
      readAll P ofList bs = ((readAll P src s).1, (readAll P src s).2.on bs') :=
  sim_readLoop hsrc P hR (lt_succ_of_le (hsrc.length_le hR)) (lt_succ_self _)

end

end Reader

end Prometheus.Wlog
