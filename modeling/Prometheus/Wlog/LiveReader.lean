import Prometheus.Wlog.Writer

/-!
# Reading a segment while it is written

`LiveReader` of `tsdb/wlog/live_reader.go`. It reads what is there of a segment into a buffer of one
page and takes fragments from the buffer; if one is not complete, it stops and goes on from there in
the next call.

The buffer is always the start of the page at which the reader is (`LiveReader.Inv`), since no
fragment crosses the end of a page. So a call that returns no record has returned all records that
end in the bytes that were visible (`WL.log_liveReader`).
-/

namespace Prometheus.Wlog

open BitList List Nat

variable {σ : Type}

/-! ### LiveReader -/

inductive LiveError
  /-- `io.EOF` -/
  | eof
  /-- "unexpected non-zero byte in page term bytes" -/
  | nonZeroByte
  /-- "record length greater than a single page: %d > %d" -/
  | recordTooLong (length : ℕ)
  /-- "unexpected checksum %x, expected %x" -/
  | unexpectedChecksum (c crc : ℕ)
  | record (e : RecordError)
  /-- The error of `compression.Decode`. -/
  | decode
deriving DecidableEq

/-- `LiveReader` as `NewLiveReader` creates it, that is, permissive. `buf` is the first `writeIndex`
bytes of the buffer. -/
structure LiveReader (σ : Type) where
  rdr : σ
  err : Option LiveError
  /-- `rec` -/
  record : Bytes
  precomprBuf : Bytes
  hdr : Bytes
  buf : Bytes
  readIndex : ℕ
  total : ℕ
  index : ℕ

/-- `NewLiveReader`. -/
def newLiveReader (s : σ) : LiveReader σ := ⟨s, none, [], [], [], [], 0, 0, 0⟩

namespace LiveReader

variable (P : Params) (src : Source σ (BitVec 8))

variable (r : LiveReader σ)

/-- `readRecord`. A fragment that crosses the end of the buffer is only logged. -/
def readRecord : Except LiveError (Option Bytes × ℕ) × LiveReader σ :=
  if r.buf.getD r.readIndex 0 = RecType.pageTerm.byte then
    let remaining := pageSize - r.total % pageSize
    if r.readIndex + remaining > r.buf.length then (.error .eof, r)
    else if ((r.buf.drop r.readIndex).take remaining).any (· != 0) then (.error .nonZeroByte, r)
    else (.ok (none, remaining), r)
  else if r.buf.length - r.readIndex < recordHeaderSize then (.error .eof, r)
  else
    let hdr := (r.buf.drop r.readIndex).take recordHeaderSize
    let r := { r with hdr := hdr }
    let length := ofBytes ((hdr.drop 1).take 2)
    let crc := ofBytes (hdr.drop 3)
    if recordHeaderSize + length > pageSize then
      (.error (.recordTooLong (recordHeaderSize + length)), r)
    else if r.readIndex + recordHeaderSize + length > r.buf.length then (.error .eof, r)
    else
      let part := (r.buf.drop (r.readIndex + recordHeaderSize)).take length
      if (P.crc part).toNat ≠ crc then (.error (.unexpectedChecksum (P.crc part).toNat crc), r)
      else (.ok (some part, length + recordHeaderSize), r)

/-- What `buildRecord` does with a fragment. Without a result, it goes on to the next one. -/
def takePart (part : Bytes) (r : LiveReader σ) : Option (Except LiveError Bool) × LiveReader σ :=
  let rt := recTypeFromHeader (r.hdr.headD 0)
  let compr := compressionFromHeader (r.hdr.headD 0)
  let precomprBuf := if rt = .first ∨ rt = .full then [] else r.precomprBuf
  let r := { r with precomprBuf := precomprBuf ++ part }
  match validateRecord rt r.index with
  | some e => (some (.error (.record e)), { r with index := 0 })
  | none =>
    if rt = .last ∨ rt = .full then
      match P.codec.decode compr r.precomprBuf with
      | none => (some (.error .decode), { r with index := 0 })
      | some rec => (some (.ok true), { r with index := 0, record := rec })
    else (none, { r with index := r.index + 1 })

/-- Take `n` bytes from the buffer. -/
def advance (n : ℕ) (r : LiveReader σ) : LiveReader σ :=
  { r with readIndex := r.readIndex + n, total := r.total + n }

/-- A turn of the loop in `buildRecord`. Without a result, there is another one. -/
def buildTurn : Option (Except LiveError Bool) × LiveReader σ :=
  if r.buf.length ≤ r.readIndex then (some (.ok false), r)
  else
    match r.readRecord P with
    | (.error e, r) => (some (.error e), r)
    | (.ok (none, n), r) => (some (.ok false), r.advance n)
    | (.ok (some part, n), r) => takePart P part (r.advance n)

/-- The loop of `buildRecord`. Each turn takes something from the buffer. -/
def buildLoop : ℕ → LiveReader σ → Except LiveError Bool × LiveReader σ
  | 0, r => (.ok false, r)
  | fuel + 1, r =>
    match r.buildTurn P with
    | (some res, r) => (res, r)
    | (none, r) => buildLoop fuel r

/-- `buildRecord`. -/
def buildRecord : Except LiveError Bool × LiveReader σ :=
  buildLoop P (r.buf.length + 1) r

/-- What `Next` does if there was no record in the buffer: whether it goes on. -/
def refill : Bool × LiveReader σ :=
  if r.buf.length = pageSize ∧ r.readIndex > 0 then
    (true, { r with buf := r.buf.drop r.readIndex, readIndex := 0 })
  else
    let r := if r.readIndex = pageSize then { r with buf := [], readIndex := 0 } else r
    if r.buf.length ≠ pageSize then
      -- `fillBuffer`
      let (b, eof, s) := src.read (pageSize - r.buf.length) r.rdr
      let r := { r with rdr := s, buf := r.buf ++ b }
      if b.length = 0 then (false, { r with err := if eof then some .eof else none }) else (true, r)
    else (true, r)

/-- The loop of `Next`. Without a result, there were not enough turns. -/
def nextLoop : ℕ → LiveReader σ → Option (Bool × LiveReader σ)
  | 0, _ => none
  | fuel + 1, r =>
    let (res, r) := r.buildRecord P
    match res with
    | .ok true => some (true, r)
    | .ok false =>
      match r.refill src with
      | (false, r) => some (false, r)
      | (true, r) => nextLoop fuel r
    | .error e =>
      if e ≠ .eof then some (false, { r with err := some e })
      else
        match r.refill src with
        | (false, r) => some (false, r)
        | (true, r) => nextLoop fuel r

/-- `Next`. There are at most two turns between reads. -/
def next : Option (Bool × LiveReader σ) :=
  nextLoop P src (2 * src.left r.rdr + 4) r

/-- So many calls of `Next`: the records that are returned, and the reader that is left. -/
def calls : ℕ → LiveReader σ → Option (List Bytes × LiveReader σ)
  | 0, r => some ([], r)
  | n + 1, r => do
    let (ok, r) ← r.next P src
    let (recs, r') ← calls n r
    some ((if ok then [r.record] else []) ++ recs, r')

end LiveReader

/-! ### A segment that gets visible -/

/-- A segment as its reader sees it: the whole of it, how much has been read, how much is visible,
and how many bytes get visible before each of the next reads. -/
structure Tail where
  stream : Bytes
  pos : ℕ
  seen : ℕ
  reads : List ℕ

/-- Read what is visible. Nothing to read is reported as the end. -/
def Tail.read (n : ℕ) (t : Tail) : Bytes × Bool × Tail :=
  let seen := t.seen + t.reads.headD 0
  let b := ((t.stream.take seen).drop t.pos).take n
  (b, b.isEmpty, ⟨t.stream, t.pos + b.length, seen, t.reads.tail⟩)

def tailSource : Source Tail (BitVec 8) where
  read := Tail.read
  left t := t.stream.length - t.pos

def newTail (stream : Bytes) (reads : List ℕ) : Tail := ⟨stream, 0, 0, reads⟩

/-! ### Any stream

Whatever is read, the reader stays within its buffer and every call of `Next` returns. A fragment at
the start of a whole page is never waited for, so there is always room to read more into. -/

namespace LiveReader

variable {P : Params} {src : Source σ (BitVec 8)} {r : LiveReader σ} {fuel : ℕ}

/-- What is taken was read, and what was read is not more than a page. -/
def WF (r : LiveReader σ) : Prop := r.readIndex ≤ r.buf.length ∧ r.buf.length ≤ pageSize

/-- Nothing was read into the buffer, and none of it was consumed. -/
def SameBuffer (r r' : LiveReader σ) : Prop :=
  r'.rdr = r.rdr ∧ r'.buf = r.buf ∧ r'.readIndex = r.readIndex

variable (P : Params)

/-- If the buffer is a whole page, then the fragment at its start is not waited for. -/
lemma readRecord_cases (r : LiveReader σ) :
    let (res, r') := r.readRecord P
    SameBuffer r r' ∧ (∀ part n, res = .ok (part, n) → 0 < n ∧ r.readIndex + n ≤ r.buf.length) ∧
      (res = .error .eof → r.buf.length = pageSize → 0 < r.readIndex) := by
  have hsize := pageSize_eq
  have hheader := recordHeaderSize_eq
  unfold readRecord SameBuffer
  split_ifs <;> grind

lemma takePart_cases (part : Bytes) (r : LiveReader σ) :
    let (res, r') := takePart P part r
    SameBuffer r r' ∧ res ≠ some (.ok false) ∧ res ≠ some (.error .eof) := by
  unfold takePart SameBuffer
  grind

/-- A turn takes something from the buffer, unless it is the last one. -/
lemma buildTurn_cases (r : LiveReader σ) :
    let (res, r') := r.buildTurn P
    r'.rdr = r.rdr ∧ r'.buf = r.buf ∧ r.readIndex ≤ r'.readIndex ∧
      (res = none → r.readIndex < r'.readIndex) ∧ (r.WF → r'.WF) ∧
      (res = some (.ok false) ∨ res = some (.error .eof) → r.buf.length = pageSize →
        0 < r'.readIndex) := by
  have hread := readRecord_cases P r
  have hsize := pageSize_eq
  unfold buildTurn SameBuffer WF at *
  split_ifs with hempty
  · grind
  rcases hr : r.readRecord P with ⟨e | ⟨_ | part, n⟩, r₁⟩
  · grind
  · grind [advance]
  · have htake := takePart_cases P part (r₁.advance n)
    grind [SameBuffer, advance]

/-- If all turns find no record in a whole page, then they have taken something. -/
lemma buildLoop_cases (h : r.WF) (hfuel : 0 < fuel ∨ 0 < r.readIndex) :
    let (res, r') := buildLoop P fuel r
    r'.rdr = r.rdr ∧ r'.buf = r.buf ∧ r'.WF ∧
      (res = .ok false ∨ res = .error .eof → r.buf.length = pageSize → 0 < r'.readIndex) := by
  induction fuel generalizing r with
  | zero => exact ⟨rfl, rfl, h, fun _ _ => hfuel.resolve_left (lt_irrefl 0)⟩
  | succ fuel ih =>
    have hturn := buildTurn_cases P r
    rw [buildLoop]
    rcases ht : r.buildTurn P with ⟨_ | res, r₁⟩
    · grind
    · grind

variable (src r)

/-- A bound on the turns of `Next` that are left: at most two between reads, and each read but the
last one gets something. -/
def turns : ℕ :=
  2 * src.left r.rdr + if r.buf.length = pageSize then 1 else 0

variable {src r}

lemma refill_cases (hsrc : src.Finite) (h : r.WF) :
    let (more, r') := r.refill src
    r'.WF ∧ (more = true → (r.buf.length = pageSize → 0 < r.readIndex) →
      turns src r' < turns src r) := by
  have hlen := hsrc.length_le (pageSize - r.buf.length) r.rdr
  have hleft := hsrc.left_le (pageSize - r.buf.length) r.rdr
  unfold WF refill turns at *
  grind

lemma nextLoop_cases (hsrc : src.Finite) (P : Params) (h : r.WF) (hfuel : turns src r < fuel) :
    ∃ ok r', nextLoop P src fuel r = some (ok, r') ∧ r'.WF := by
  induction fuel generalizing r with
  | zero => omega
  | succ fuel ih =>
    have hbuild := buildLoop_cases P h (.inl (Nat.succ_pos r.buf.length))
    rw [nextLoop, buildRecord]
    rcases hb : buildLoop P (r.buf.length + 1) r with ⟨res, r₁⟩
    rw [hb] at hbuild
    obtain ⟨hrdr, hbuf, hwf, htaken⟩ := hbuild
    have hrefill := refill_cases hsrc hwf
    have hturns : turns src r₁ = turns src r := by rw [turns, hrdr, hbuf, turns]
    rcases hf : r₁.refill src with ⟨more, r₂⟩
    unfold WF at *
    grind

/-- **Every call of `Next` returns.** -/
theorem next_returns (hsrc : src.Finite) (P : Params) :
    (∀ s : σ, (newLiveReader s).WF) ∧ ∀ r : LiveReader σ, r.WF →
      ((r.buildTurn P).2.WF ∧ (r.buildTurn P).2.buf = r.buf ∧
        ((r.buildTurn P).1 = none → r.readIndex < (r.buildTurn P).2.readIndex)) ∧
      (r.refill src).2.WF ∧ ∃ ok r', r.next P src = some (ok, r') ∧ r'.WF := by
  refine ⟨fun s => ⟨le_rfl, Nat.zero_le _⟩, fun r h => ?_⟩
  obtain ⟨-, hbuf, -, hlt, hwf, -⟩ := buildTurn_cases P r
  refine ⟨⟨hwf h, hbuf, hlt⟩, (refill_cases hsrc h).1, nextLoop_cases hsrc P h ?_⟩
  unfold turns
  split_ifs <;> omega

lemma length_read (n : ℕ) (t : Tail) : (t.read n).1.length =
    min n (min (t.seen + t.reads.headD 0) t.stream.length - t.pos) := by
  simp [Tail.read]

lemma tailSource_finite : tailSource.Finite where
  length_le n t := length_take_le n _
  left_le n t := by
    have hlen := length_read n t
    show _ + (t.stream.length - (t.pos + (t.read n).1.length)) ≤ t.stream.length - t.pos
    show (t.read n).1.length + _ ≤ _
    omega

/-- A record of two bytes that comes in two pieces, with zeros behind it. -/
theorem next_returns_zeros :
    let P : Params := ⟨fun _ => 0, WL.storeOnly⟩
    let r := newLiveReader (newTail ([1, 0, 2, 0, 0, 0, 0, 65, 66] ++ zeros 7) [5, 11])
    tailSource.Finite ∧ (∃ ok r', r.next P tailSource = some (ok, r') ∧ r'.WF) ∧
      (r.next P tailSource).map (fun x => (x.1, x.2.record)) = some (true, [65, 66]) := by
  intro P r
  have h := next_returns tailSource_finite P
  exact ⟨tailSource_finite, (h.2 r (h.1 _)).2.2, by decide +kernel⟩

end LiveReader

/-! ### Fragments in the buffer -/

variable {outs : List (Bytes × ℕ)} {part : Bytes} {n : ℕ}

namespace LiveReader

variable {P : Params} (typ : RecType) (compr : Compression) (part : Bytes)

/-- The header of a fragment. -/
def fragmentHeader (P : Params) (typ : RecType) (compr : Compression) (part : Bytes) : Bytes :=
  [headerByte typ compr] ++ (bytesOf 2 part.length ++ bytesOf 4 (P.crc part).toNat)

lemma fragment_eq : fragment P typ compr part = fragmentHeader P typ compr part ++ part :=
  (append_assoc _ _ _).symm

lemma length_fragmentHeader : (fragmentHeader P typ compr part).length = recordHeaderSize := by
  simp [fragmentHeader]

variable {typ : RecType} {compr : Compression} {part : Bytes} {r : LiveReader σ}

lemma length_of_fragmentHeader (hpart : recordHeaderSize + part.length ≤ pageSize) :
    ofBytes (((fragmentHeader P typ compr part).drop 1).take 2) = part.length := by
  show ofBytes ((bytesOf 2 part.length ++ bytesOf 4 (P.crc part).toNat).take 2) = part.length
  rw [take_left' (length_bytesOf _ _), ofBytes_bytesOf, mod_eq_of_lt]
  have := pageSize_eq
  omega

lemma crc_of_fragmentHeader :
    ofBytes ((fragmentHeader P typ compr part).drop 3) = (P.crc part).toNat := by
  show ofBytes ((bytesOf 2 part.length ++ bytesOf 4 (P.crc part).toNat).drop 2) = (P.crc part).toNat
  rw [drop_left' (length_bytesOf _ _), ofBytes_bytesOf, mod_eq_of_lt]
  exact (P.crc part).isLt

lemma headerByte_ne_zero (h : typ.IsFragment) (compr : Compression) :
    headerByte typ compr ≠ RecType.pageTerm.byte := by
  cases typ <;> first | contradiction | (cases compr <;> decide)

lemma getD_eq_headD_drop (bs : Bytes) (i : ℕ) : bs.getD i 0 = (bs.drop i).headD 0 := by
  simp [getD, headD_eq_head?_getD]

/-- A fragment that is complete in the buffer. -/
lemma readRecord_fragment {u : Bytes}
    (htyp : typ.IsFragment) (hpart : recordHeaderSize + part.length ≤ pageSize)
    (hr : r.buf.drop r.readIndex = fragment P typ compr part ++ u) :
    r.readRecord P = (.ok (some part, part.length + recordHeaderSize),
      { r with hdr := fragmentHeader P typ compr part }) := by
  have hlen := congrArg length hr
  rw [length_drop, length_append, length_fragment] at hlen
  have hhdr : (r.buf.drop r.readIndex).take recordHeaderSize = fragmentHeader P typ compr part := by
    rw [hr, fragment_eq, append_assoc, take_left' (length_fragmentHeader _ _ _)]
  have hdata : (r.buf.drop (r.readIndex + recordHeaderSize)).take part.length = part := by
    rw [← drop_drop, hr, fragment_eq, append_assoc,
      drop_left' (length_fragmentHeader _ _ _), take_left]
  have hfirst : r.buf.getD r.readIndex 0 ≠ RecType.pageTerm.byte := by
    rw [getD_eq_headD_drop, hr]
    exact headerByte_ne_zero htyp compr
  have hbuf : ¬ r.buf.length - r.readIndex < recordHeaderSize := by omega
  have hpage : ¬ recordHeaderSize + part.length > pageSize := by omega
  have hend : ¬ r.readIndex + recordHeaderSize + part.length > r.buf.length := by
    rw [recordHeaderSize_eq] at *
    omega
  unfold readRecord
  simp only [if_neg hfirst, if_neg hbuf, hhdr, length_of_fragmentHeader hpart,
    crc_of_fragmentHeader,
    if_neg hpage, if_neg hend, hdata]
  exact if_neg (not_not.2 rfl)

/-- A fragment of which only a part is in the buffer. -/
lemma readRecord_fragment_part
    {m : ℕ} (htyp : typ.IsFragment)
    (hpart : recordHeaderSize + part.length ≤ pageSize) (hpos : 0 < m)
    (hm : m < (fragment P typ compr part).length)
    (hr : r.buf.drop r.readIndex = (fragment P typ compr part).take m) :
    ∃ hdr, r.readRecord P = (.error .eof, { r with hdr := hdr }) := by
  have hlen := congrArg length hr
  rw [length_drop, length_take_of_le hm.le] at hlen
  have hfirst : r.buf.getD r.readIndex 0 ≠ RecType.pageTerm.byte := by
    obtain ⟨m, rfl⟩ := exists_eq_succ_of_ne_zero hpos.ne'
    rw [getD_eq_headD_drop, hr]
    exact headerByte_ne_zero htyp compr
  unfold readRecord
  by_cases hbuf : r.buf.length - r.readIndex < recordHeaderSize
  · exact ⟨r.hdr, by simp only [if_neg hfirst, if_pos hbuf]⟩
  have hhdr : (r.buf.drop r.readIndex).take recordHeaderSize = fragmentHeader P typ compr part := by
    rw [hr, take_take, min_eq_left (by omega), fragment_eq,
      take_left' (length_fragmentHeader _ _ _)]
  have hpage : ¬ recordHeaderSize + part.length > pageSize := by omega
  have hend : r.readIndex + recordHeaderSize + part.length > r.buf.length := by
    rw [length_fragment] at hm
    omega
  refine ⟨fragmentHeader P typ compr part, ?_⟩
  simp only [if_neg hfirst, if_neg hbuf, hhdr, length_of_fragmentHeader hpart, if_neg hpage,
    if_pos hend]

/-- The rest of a page that is complete in the buffer. -/
lemma readRecord_pad {u : Bytes} (hr : r.buf.drop r.readIndex = zeros (pageRest r.total) ++ u) :
    r.readRecord P = (.ok (none, pageRest r.total), r) := by
  have hlen := congrArg length hr
  rw [length_drop, length_append, length_zeros] at hlen
  have hpos := pageRest_pos r.total
  have hfirst : r.buf.getD r.readIndex 0 = RecType.pageTerm.byte := by
    obtain ⟨m, hm⟩ := exists_eq_succ_of_ne_zero hpos.ne'
    rw [getD_eq_headD_drop, hr, hm]
    rfl
  have hend : ¬ r.readIndex + pageRest r.total > r.buf.length := by omega
  have hzero : ((r.buf.drop r.readIndex).take (pageRest r.total)).any (· != 0) = false := by
    rw [hr, take_left' (length_zeros _)]
    simp [zeros]
  unfold readRecord
  rw [if_pos hfirst]
  show (if r.readIndex + pageRest r.total > r.buf.length then _ else _) = _
  rw [if_neg hend, if_neg (by rw [← pageRest, hzero]; exact Bool.false_ne_true)]
  rfl

/-- The rest of a page of which only a part is in the buffer. -/
lemma readRecord_pad_part {m : ℕ} (hpos : 0 < m) (hm : m < pageRest r.total)
    (hr : r.buf.drop r.readIndex = (zeros (pageRest r.total)).take m) :
    r.readRecord P = (.error .eof, r) := by
  have hlen := congrArg length hr
  rw [length_drop, length_take_of_le (by rw [length_zeros]; exact hm.le)] at hlen
  have hfirst : r.buf.getD r.readIndex 0 = RecType.pageTerm.byte := by
    obtain ⟨m, rfl⟩ := exists_eq_succ_of_ne_zero hpos.ne'
    obtain ⟨k, hk⟩ := exists_eq_succ_of_ne_zero (pageRest_pos r.total).ne'
    rw [getD_eq_headD_drop, hr, hk]
    rfl
  have hend : r.readIndex + pageRest r.total > r.buf.length := by omega
  unfold readRecord
  rw [if_pos hfirst]
  exact if_pos hend

/-- A fragment that may come next and does not end a record. -/
lemma takePart_part
    (htyp : typ = .first ∨ typ = .middle) (hval : validateRecord typ r.index = none)
    (hhdr : r.hdr = fragmentHeader P typ compr part) :
    takePart P part r = (none, { r with
      precomprBuf := (if typ = .first then [] else r.precomprBuf) ++ part,
      index := r.index + 1 }) := by
  have hfrag := isFragment_of_validateRecord hval
  have htyp' : recTypeFromHeader (r.hdr.headD 0) = typ := by
    rw [hhdr]
    exact recTypeFromHeader_headerByte hfrag compr
  unfold takePart
  rw [htyp']
  obtain rfl | rfl := htyp <;> simp [hval]

/-- A fragment that may come next and ends a record. -/
lemma takePart_record {rec : Bytes}
    (htyp : typ = .last ∨ typ = .full) (hval : validateRecord typ r.index = none)
    (hhdr : r.hdr = fragmentHeader P typ compr part)
    (hdec : P.codec.decode compr ((if typ = .full then [] else r.precomprBuf) ++ part) = some rec) :
    takePart P part r = (some (.ok true), { r with
      precomprBuf := (if typ = .full then [] else r.precomprBuf) ++ part, index := 0,
      record := rec }) := by
  have hfrag := isFragment_of_validateRecord hval
  have htyp' : recTypeFromHeader (r.hdr.headD 0) = typ := by
    rw [hhdr]
    exact recTypeFromHeader_headerByte hfrag compr
  have hcompr : compressionFromHeader (r.hdr.headD 0) = compr := by
    rw [hhdr]
    exact compressionFromHeader_headerByte hfrag compr
  unfold takePart
  rw [htyp', hcompr]
  obtain rfl | rfl := htyp <;> simp_all

/-! ### The invariant -/

/-- The reader of the segment `S` has returned the records `done`, the records `rest` are to come,
and its buffer is the start of the page at `base`. -/
structure Inv (P : Params) (S : Bytes) (base : ℕ) (done rest : List (Bytes × ℕ))
    (r : LiveReader Tail) : Prop where
  stream : r.rdr.stream = S
  layout : Layout P r.total ⟨r.index, if r.index = 0 then [] else r.precomprBuf⟩ (S.drop r.total)
    rest .zero
  total : r.total = base + r.readIndex
  aligned : base % pageSize = 0
  pos : r.rdr.pos = base + r.buf.length
  pos_le : r.rdr.pos ≤ S.length
  pos_le_seen : r.rdr.pos ≤ r.rdr.seen
  buf : r.buf = (S.drop base).take r.buf.length
  readIndex_le : r.readIndex ≤ r.buf.length
  buf_le : r.buf.length ≤ pageSize
  done_le : ∀ o ∈ done, o.2 ≤ r.total

namespace Inv

variable {S : Bytes} {base : ℕ} {done rest : List (Bytes × ℕ)} {r : LiveReader Tail}

/-- What is in the buffer and not taken yet. -/
lemma unread (h : Inv P S base done rest r) :
    r.buf.drop r.readIndex = (S.drop r.total).take (r.buf.length - r.readIndex) := by
  conv_lhs => rw [h.buf]
  rw [drop_take, drop_drop, ← h.total]

variable {item bs : Bytes}

variable (h : Inv P S base done rest r)
include h

/-- Something that is complete in the buffer. -/
lemma unread_of_le (hS : S.drop r.total = item ++ bs)
    (hle : item.length ≤ r.buf.length - r.readIndex) : ∃ u, r.buf.drop r.readIndex = item ++ u := by
  rw [h.unread, hS, take_append, take_of_length_le hle]
  exact ⟨_, rfl⟩

/-- Something of which only a part is in the buffer. -/
lemma unread_of_lt (hS : S.drop r.total = item ++ bs)
    (hlt : r.buf.length - r.readIndex < item.length) :
    r.buf.drop r.readIndex = item.take (r.buf.length - r.readIndex) := by
  rw [h.unread, hS, take_append_of_le_length hlt.le]

/-- Take `n` bytes from the buffer. -/
lemma consume {r' : LiveReader Tail}
    {done' rest' : List (Bytes × ℕ)} (hrdr : r'.rdr = r.rdr) (hbuf : r'.buf = r.buf)
    (hindex : r'.readIndex = r.readIndex + n) (htotal : r'.total = r.total + n)
    (hn : n ≤ r.buf.length - r.readIndex)
    (hl : Layout P r'.total
      ⟨r'.index, if r'.index = 0 then [] else r'.precomprBuf⟩ (S.drop r'.total)
      rest' .zero) (hdone : ∀ o ∈ done', o.2 ≤ r'.total) : Inv P S base done' rest' r' where
  stream := hrdr ▸ h.stream
  layout := hl
  total := by rw [htotal, hindex, h.total, add_assoc]
  aligned := h.aligned
  pos := by rw [hrdr, hbuf, h.pos]
  pos_le := hrdr ▸ h.pos_le
  pos_le_seen := hrdr ▸ h.pos_le_seen
  buf := by rw [hbuf]; exact h.buf
  readIndex_le := by
    have := h.readIndex_le
    rw [hbuf, hindex]
    omega
  buf_le := hbuf ▸ h.buf_le
  done_le := hdone

omit h

lemma drop_total (hS : S.drop n = item ++ bs) : S.drop (n + item.length) = bs := by
  rw [← drop_drop, hS, drop_left]

lemma mod_total (h : Inv P S base done rest r) (hri : r.readIndex < r.buf.length) :
    r.total % pageSize = r.readIndex := by
  have := h.buf_le
  rw [h.total, add_mod, h.aligned, zero_add, mod_mod, mod_eq_of_lt (by omega)]

end Inv

/-- There is no more to take from the buffer. -/
structure Stuck (P : Params) (S : Bytes) (base : ℕ) (done rest : List (Bytes × ℕ))
    (r : LiveReader Tail) : Prop where
  inv : Inv P S base done rest r
  later : ∀ o ∈ rest, r.rdr.pos < o.2
  readIndex : r.buf.length = pageSize → r.readIndex = pageSize

variable {S : Bytes} {base : ℕ} {done rest : List (Bytes × ℕ)} {r : LiveReader Tail}

/-- Something of which only a part is in the buffer, and which ends with the page or before. -/
lemma Inv.stuck (h : Inv P S base done rest r) (hri : r.readIndex < r.buf.length)
    (hfits : r.total % pageSize + n ≤ pageSize) (hlt : r.buf.length - r.readIndex < n)
    (hrest : ∀ o ∈ rest, r.total + n ≤ o.2) (hdr : Bytes) :
    Stuck P S base done rest { r with hdr := hdr } := by
  have hmod := h.mod_total hri
  have hpos := h.pos
  have htotal := h.total
  refine ⟨h.consume rfl rfl rfl rfl (zero_le _) h.layout h.done_le, fun o ho => ?_, fun hfull => ?_⟩
  · have := hrest o ho
    show r.rdr.pos < o.2
    omega
  · have hfull : r.buf.length = pageSize := hfull
    omega

/-- How a turn ends: with a record, with nothing more to take, or with a fragment that is taken. -/
inductive TurnSpec (P : Params) (S : Bytes) (base : ℕ) (done rest : List (Bytes × ℕ))
    (r : LiveReader Tail) : Option (Except LiveError Bool) × LiveReader Tail → Prop
  | record {rec : Bytes} {e : ℕ} {rest' : List (Bytes × ℕ)} {r' : LiveReader Tail}
      (hrest : rest = (rec, e) :: rest') (hrec : r'.record = rec)
      (hinv : Inv P S base (done ++ [(rec, e)]) rest' r') :
      TurnSpec P S base done rest r (some (.ok true), r')
  | stuck {res : Except LiveError Bool} {r' : LiveReader Tail}
    (hres : res = .ok false ∨ res = .error .eof)
      (hstuck : Stuck P S base done rest r') : TurnSpec P S base done rest r (some res, r')
  | part {r' : LiveReader Tail} (hinv : Inv P S base done rest r')
    (hlt : r.readIndex < r'.readIndex) :
      TurnSpec P S base done rest r (none, r')

variable (h : Inv P S base done rest r)
include h

/-- A turn that finds a fragment at the current position: it is taken, or not all of it is there. -/
lemma buildTurn_fragment (hri : r.readIndex < r.buf.length) {typ : RecType}
    {compr : Compression} {bs : Bytes} (htyp : typ.IsFragment)
    (hfits : FitsPage r.total part.length) (hS : S.drop r.total = fragment P typ compr part ++ bs)
    (hrest : ∀ o ∈ rest, r.total + (fragment P typ compr part).length ≤ o.2) :
    TurnSpec P S base done rest r (r.buildTurn P) ∨
    (fragment P typ compr part).length ≤ r.buf.length - r.readIndex ∧
      r.buildTurn P = takePart P part ({ r with hdr := fragmentHeader P typ compr part }.advance
        (fragment P typ compr part).length) := by
  have hlen := length_fragment P typ compr part
  have hpart : recordHeaderSize + part.length ≤ pageSize := by
    unfold FitsPage at hfits
    omega
  have hfits' : r.total % pageSize + (fragment P typ compr part).length ≤ pageSize := by
    rw [hlen, ← add_assoc]
    exact hfits
  unfold buildTurn
  rw [if_neg (not_le.2 hri)]
  by_cases hcomplete : (fragment P typ compr part).length ≤ r.buf.length - r.readIndex
  · obtain ⟨u, hu⟩ := h.unread_of_le hS hcomplete
    rw [readRecord_fragment htyp hpart hu, add_comm part.length, ← hlen]
    exact .inr ⟨hcomplete, rfl⟩
  rw [not_le] at hcomplete
  obtain ⟨hdr, hread⟩ := readRecord_fragment_part htyp hpart (by omega) hcomplete
    (h.unread_of_lt hS hcomplete)
  rw [hread]
  exact .inl (.stuck (.inr rfl) (h.stuck hri hfits' hcomplete hrest hdr))

lemma buildTurn_spec : TurnSpec P S base done rest r (r.buildTurn P) := by
  have hpos := h.pos
  have htotal := h.total
  have hle := h.readIndex_le
  by_cases hempty : r.buf.length ≤ r.readIndex
  · -- everything has been taken
    rw [buildTurn, if_pos hempty]
    refine .stuck (.inl rfl) ⟨h, fun o ho => ?_, fun hfull => by omega⟩
    have := (h.layout.bounds o ho).1
    omega
  have hri := not_le.1 hempty
  have hmod := h.mod_total hri
  have hl := h.layout
  generalize hS : S.drop r.total = bs at hl
  generalize ha : (⟨r.index, if r.index = 0 then [] else r.precomprBuf⟩ : Pending) = a at hl
  generalize ht : r.total = t at hl
  generalize ha' : Pending.zero = a' at hl
  cases hl with
  | nil =>
    have hnil := congrArg length h.unread
    rw [hS, take_nil, length_drop, length_nil] at hnil
    omega
  | @pad _ _ _ bs _ hl =>
    subst ht ha ha'
    rw [buildTurn, if_neg hempty]
    have hrest := pageRest_pos r.total
    have hpage : r.total % pageSize + pageRest r.total = pageSize := by
      have := h.buf_le
      unfold pageRest
      omega
    by_cases hcomplete : (zeros (pageRest r.total)).length ≤ r.buf.length - r.readIndex
    · obtain ⟨u, hu⟩ := h.unread_of_le hS hcomplete
      rw [readRecord_pad hu]
      rw [← Inv.drop_total hS, length_zeros] at hl
      rw [length_zeros] at hcomplete
      refine .stuck (.inl rfl) ⟨h.consume rfl rfl rfl rfl hcomplete hl fun o ho =>
        le_add_right_of_le (h.done_le o ho), fun o ho => ?_, fun hfull => ?_⟩
      · -- the buffer does not reach beyond the page
        have := (hl.bounds o ho).1
        have := h.buf_le
        show r.rdr.pos < o.2
        omega
      · show r.readIndex + pageRest r.total = pageSize
        omega
    · have hu := h.unread_of_lt hS (not_le.1 hcomplete)
      rw [length_zeros, not_le] at hcomplete
      rw [readRecord_pad_part (by omega) hcomplete hu]
      exact .stuck (.inr rfl) (h.stuck hri hpage.le hcomplete
        (fun o ho => (hl.bounds o ho).1.le) r.hdr)
  | @part _ _ _ typ compr part bs _ htyp hval hfits hl =>
    subst ht ha ha'
    obtain hspec | ⟨hcomplete, hturn⟩ := buildTurn_fragment h hri
      (isFragment_of_validateRecord hval)
      hfits hS fun o ho => (hl.bounds o ho).1.le
    · exact hspec
    rw [hturn.trans (takePart_part htyp hval rfl)]
    have hbuf : (if r.index = 0 then [] else r.precomprBuf) =
        if typ = .first then [] else r.precomprBuf := by
      obtain rfl | rfl := htyp <;> simp_all [validateRecord]
    rw [← Inv.drop_total hS, hbuf] at hl
    refine .part (h.consume rfl rfl rfl rfl hcomplete hl fun o ho =>
      le_add_right_of_le (h.done_le o ho)) ?_
    have := length_fragment P typ compr part
    show r.readIndex < r.readIndex + (fragment P typ compr part).length
    rw [recordHeaderSize_eq] at this
    omega
  | @record _ _ _ typ compr part rec bs rest htyp hval hfits hdec hl =>
    subst ht ha ha'
    have hrest : ∀ o ∈ (rec, r.total + (fragment P typ compr part).length) :: rest,
        r.total + (fragment P typ compr part).length ≤ o.2 := by
      intro o ho
      obtain rfl | ho := mem_cons.1 ho
      · exact le_refl _
      · exact (hl.bounds o ho).1.le
    obtain hspec | ⟨hcomplete, hturn⟩ := buildTurn_fragment h hri
      (isFragment_of_validateRecord hval)
      hfits hS hrest
    · exact hspec
    have hbuf : (if r.index = 0 then [] else r.precomprBuf) =
        if typ = .full then [] else r.precomprBuf := by
      obtain rfl | rfl := htyp <;> simp_all [validateRecord]
    rw [hbuf] at hdec
    rw [hturn.trans (takePart_record htyp hval rfl hdec)]
    rw [← Inv.drop_total hS] at hl
    refine .record rfl rfl (h.consume rfl rfl rfl rfl hcomplete hl fun o ho => ?_)
    obtain ho | ho := mem_append.1 ho
    · exact le_add_right_of_le (h.done_le o ho)
    · rw [mem_singleton.1 ho]
      exact le_refl _

/-- All turns: with a record, or with nothing more to take. -/
lemma buildLoop_spec {fuel : ℕ} (hfuel : r.buf.length - r.readIndex < fuel) :
    ∃ res r', buildLoop P fuel r = (res, r') ∧
      ((res = .ok true ∧ ∃ rec e rest', rest = (rec, e) :: rest' ∧ r'.record = rec ∧
          Inv P S base (done ++ [(rec, e)]) rest' r') ∨
        ((res = .ok false ∨ res = .error .eof) ∧ Stuck P S base done rest r')) := by
  induction fuel generalizing r with
  | zero => omega
  | succ fuel ih =>
    have hspec := buildTurn_spec h
    have hbuf : (r.buildTurn P).2.buf = r.buf := (buildTurn_cases P r).2.1
    rw [buildLoop]
    generalize r.buildTurn P = turn at hspec hbuf
    cases hspec with
    | record hrest hrec hinv => exact ⟨_, _, rfl, .inl ⟨rfl, _, _, _, hrest, hrec, hinv⟩⟩
    | stuck hres hstuck => exact ⟨_, _, rfl, .inr ⟨hres, hstuck⟩⟩
    | part hinv hlt =>
      have := hinv.readIndex_le
      exact ih hinv (by dsimp only at hbuf; rw [hbuf] at *; omega)

omit h

/-! ### Whole calls -/

/-- A bound on the turns of `Next` that are left: at most two between reads, and each read but the
last one gets something. -/
def turnsLeft (S : Bytes) (r : LiveReader Tail) : ℕ :=
  2 * (S.length - r.rdr.pos) + if r.buf.length = pageSize then 1 else 0

lemma read_eq_take (n : ℕ) (t : Tail) :
    (t.read n).1 = (t.stream.drop t.pos).take (t.read n).1.length := by
  rw [length_read]
  show ((t.stream.take (t.seen + t.reads.headD 0)).drop t.pos).take n = _
  rw [drop_take, take_take, take_eq_take_iff, length_drop]
  omega

/-- A read puts what it gets behind the buffer. -/
lemma Inv.read (h : Inv P S base done rest r) (err : Option LiveError) :
    Inv P S base done rest { r with
      rdr := (r.rdr.read (pageSize - r.buf.length)).2.2, err := err
      buf := r.buf ++ (r.rdr.read (pageSize - r.buf.length)).1 } := by
  have hlen := length_read (pageSize - r.buf.length) r.rdr
  have hread := read_eq_take (pageSize - r.buf.length) r.rdr
  have hpos := h.pos
  have hle := h.readIndex_le
  have hbuf := h.buf_le
  rw [h.stream] at hlen
  set b := (r.rdr.read (pageSize - r.buf.length)).1
  exact { h with
    pos := by
      show r.rdr.pos + b.length = _
      rw [length_append, hpos, add_assoc]
    pos_le := by
      have := h.pos_le
      show r.rdr.pos + b.length ≤ S.length
      omega
    pos_le_seen := by
      have := h.pos_le_seen
      show r.rdr.pos + b.length ≤ r.rdr.seen + r.rdr.reads.headD 0
      omega
    buf := by
      show r.buf ++ b = (S.drop base).take (r.buf ++ b).length
      rw [length_append, take_add, ← h.buf, drop_drop, ← hpos, ← h.stream, ← hread]
    readIndex_le := by
      show r.readIndex ≤ (r.buf ++ b).length
      rw [length_append]
      omega
    buf_le := by
      show (r.buf ++ b).length ≤ pageSize
      rw [length_append]
      omega }

/-- If there was no record in the buffer, `Next` goes on with more in the buffer or an empty one, or
everything that is visible has been taken. -/
lemma refill_spec (h : Stuck P S base done rest r) :
    (∃ r' base', r.refill tailSource = (true, r') ∧ Inv P S base' done rest r' ∧
      turnsLeft S r' < turnsLeft S r) ∨
    ∃ r', r.refill tailSource = (false, r') ∧ r'.err = some .eof ∧ Inv P S base done rest r' ∧
      ∀ o ∈ rest, r'.rdr.seen < o.2 := by
  obtain ⟨hinv, hlater, hindex⟩ := h
  have hsize := pageSize_eq
  have hpos := hinv.pos
  have hle := hinv.readIndex_le
  have hbuf := hinv.buf_le
  unfold refill
  by_cases hfull : r.buf.length = pageSize
  · -- the whole page has been taken
    have hri := hindex hfull
    have hempty : r.buf.drop r.readIndex = [] := drop_of_length_le (by omega)
    rw [if_pos ⟨hfull, by omega⟩, hempty]
    refine .inl ⟨_, r.total, rfl, ?_, ?_⟩
    · exact { hinv with
        total := rfl
        aligned := by rw [hinv.total, hri, add_mod_right, hinv.aligned]
        pos := by rw [hpos, hinv.total, hri, hfull]; rfl
        buf := rfl
        readIndex_le := le_refl _
        buf_le := zero_le _ }
    · have hnil : ([] : Bytes).length ≠ pageSize := by
        rw [hsize]
        decide
      unfold turnsLeft
      rw [if_pos hfull, if_neg hnil]
      exact lt_succ_self _
  · rw [if_neg (fun hc => hfull hc.1), if_neg (show r.readIndex ≠ pageSize by omega)]
    have hlen := length_read (pageSize - r.buf.length) r.rdr
    rw [hinv.stream] at hlen
    have hread := hinv.read
    set b := (r.rdr.read (pageSize - r.buf.length)).1
    show (∃ r' base', (if r.buf.length ≠ pageSize then _ else _) = (true, r') ∧ _) ∨
      ∃ r', (if r.buf.length ≠ pageSize then _ else _) = (false, r') ∧ _
    rw [if_pos hfull]
    by_cases hnil : b.length = 0
    · -- nothing more is visible, so no record to come ends in what is visible
      refine .inr ⟨_, if_pos hnil, ?_, hread _, fun o ho => ?_⟩
      · exact if_pos (isEmpty_iff_length_eq_zero.2 hnil)
      have hseg := (hinv.layout.bounds o ho).2
      have := hlater o ho
      have htotal := hinv.total
      rw [length_drop] at hseg
      show r.rdr.seen + r.rdr.reads.headD 0 < o.2
      omega
    · refine .inl ⟨_, base, if_neg hnil, hread r.err, ?_⟩
      show 2 * (S.length - (r.rdr.pos + b.length)) + _ < _
      rw [turnsLeft, if_neg hfull]
      split_ifs <;> omega

/-- How a call of `Next` ends: with the next record, or with all records that end in what is
visible returned before. -/
inductive NextSpec (P : Params) (S : Bytes) (done rest : List (Bytes × ℕ)) :
    Option (Bool × LiveReader Tail) → Prop
  | record {rec : Bytes} {e base : ℕ} {rest' : List (Bytes × ℕ)} {r' : LiveReader Tail}
      (hrest : rest = (rec, e) :: rest') (hrec : r'.record = rec)
      (hinv : Inv P S base (done ++ [(rec, e)]) rest' r') : NextSpec P S done rest (some (true, r'))
  | eof {base : ℕ} {r' : LiveReader Tail} (herr : r'.err = some .eof)
    (hinv : Inv P S base done rest r')
      (hlater : ∀ o ∈ rest, r'.rdr.seen < o.2) : NextSpec P S done rest (some (false, r'))

variable (h : Inv P S base done rest r)
include h

lemma nextLoop_spec {fuel : ℕ} (hfuel : turnsLeft S r < fuel) :
    NextSpec P S done rest (nextLoop P tailSource fuel r) := by
  induction fuel generalizing r base with
  | zero => omega
  | succ fuel ih =>
    obtain ⟨res, r1, hbuild, hres⟩ := buildLoop_spec h (Nat.lt_succ_of_le (Nat.sub_le _ _))
    have hsame := buildLoop_cases P ⟨h.readIndex_le, h.buf_le⟩ (.inl (succ_pos r.buf.length))
    rw [hbuild] at hsame
    obtain ⟨hrdr, hbuf, -⟩ := hsame
    rw [nextLoop, buildRecord, hbuild]
    obtain ⟨rfl, rec, e, rest', hrest, hrec, hinv⟩ | ⟨hres, hstuck⟩ := hres
    · exact .record hrest hrec hinv
    have hturns : turnsLeft S r1 = turnsLeft S r := by rw [turnsLeft, hrdr, hbuf, turnsLeft]
    -- a record that is not complete is waited for, as if there were nothing in the buffer
    obtain ⟨r', base', heq, hinv, hlt⟩ | ⟨r', heq, herr, hinv, hlater⟩ := refill_spec hstuck
    · have hloop := ih hinv (show turnsLeft S r' < fuel by omega)
      obtain rfl | rfl := hres <;> simpa [heq] using hloop
    · obtain rfl | rfl := hres <;> simpa [heq] using NextSpec.eof herr hinv hlater

lemma next_spec : NextSpec P S done rest (r.next P tailSource) := by
  refine nextLoop_spec h ?_
  show turnsLeft S r < 2 * (r.rdr.stream.length - r.rdr.pos) + 4
  rw [h.stream, turnsLeft]
  split_ifs <;> omega

lemma calls_spec (n : ℕ) :
    ∃ base' outs rest' r', calls P tailSource n r = some (outs.map Prod.fst, r') ∧
      rest = outs ++ rest' ∧ Inv P S base' (done ++ outs) rest' r' := by
  induction n generalizing r base done rest with
  | zero => exact ⟨base, [], rest, r, rfl, rfl, by rwa [append_nil]⟩
  | succ n ih =>
    have hnext := next_spec h
    rw [calls]
    generalize r.next P tailSource = res at hnext
    cases hnext with
    | @record rec e _ rest' r' hrest hrec hinv =>
      obtain ⟨base', outs, rest'', r'', hcalls, rfl, hinv'⟩ := ih hinv
      refine ⟨base', (rec, e) :: outs, rest'', r'', ?_, hrest, by simpa using hinv'⟩
      simp [hcalls, hrec]
    | eof herr hinv hlater =>
      obtain ⟨base', outs, rest'', r'', hcalls, hrest, hinv'⟩ := ih hinv
      exact ⟨base', outs, rest'', r'', by simp [hcalls], hrest, hinv'⟩

omit h

lemma inv_newLiveReader (h : Layout P 0 .zero S outs .zero)
    (reads : List ℕ) : Inv P S 0 [] outs (newLiveReader (newTail S reads)) where
  stream := rfl
  layout := h
  total := rfl
  aligned := zero_mod _
  pos := rfl
  pos_le := zero_le _
  pos_le_seen := le_refl _
  buf := rfl
  readIndex_le := le_refl _
  buf_le := zero_le _
  done_le o ho := by cases ho

/-- The records that end in the first `seen` bytes. -/
def visible (outs : List (Bytes × ℕ)) (seen : ℕ) : List Bytes :=
  (outs.filter (·.2 ≤ seen)).map Prod.fst

lemma Inv.seen_of_done (h : Inv P S base done rest r) : ∀ o ∈ done, o.2 ≤ r.rdr.seen := by
  intro o ho
  calc o.2 ≤ r.total := h.done_le o ho
    _ = base + r.readIndex := h.total
    _ ≤ base + r.buf.length := Nat.add_le_add_left h.readIndex_le base
    _ = r.rdr.pos := h.pos.symm
    _ ≤ r.rdr.seen := h.pos_le_seen

lemma filter_of_done {done : List (Bytes × ℕ)} {seen : ℕ} (h : ∀ o ∈ done, o.2 ≤ seen) :
    done.filter (·.2 ≤ seen) = done :=
  filter_eq_self.2 fun o ho => decide_eq_true (h o ho)

/-- The calls of `Next` on a segment with a layout. -/
lemma calls_layout (h : Layout P 0 .zero S outs .zero) (reads : List ℕ) (n : ℕ) :
    ∃ recs r ok r', calls P tailSource n (newLiveReader (newTail S reads)) = some (recs, r) ∧
      recs <+: visible outs r.rdr.seen ∧ r.next P tailSource = some (ok, r') ∧
      (ok = false → r'.err = some .eof ∧ recs = visible outs r'.rdr.seen) := by
  obtain ⟨base, done, rest, r, hcalls, rfl, hinv⟩ := calls_spec (inv_newLiveReader h reads) n
  rw [nil_append] at hinv
  have hnext := next_spec hinv
  have hvisible : done.map Prod.fst <+: visible (done ++ rest) r.rdr.seen := by
    rw [visible, filter_append, filter_of_done hinv.seen_of_done, map_append]
    exact prefix_append _ _
  generalize hres : r.next P tailSource = res at hnext
  cases hnext with
  | record hrest hrec hinv' =>
    exact ⟨_, r, true, _, hcalls, hvisible, hres, Bool.noConfusion⟩
  | @eof _ r' herr hinv' hlater =>
    refine ⟨_, r, false, r', hcalls, hvisible, hres, fun _ => ⟨herr, ?_⟩⟩
    have hnone : rest.filter (·.2 ≤ r'.rdr.seen) = [] :=
      filter_eq_nil_iff.2 fun o ho => by simpa using hlater o ho
    rw [visible, filter_append, filter_of_done hinv'.seen_of_done, hnone, append_nil]

end LiveReader

/-! ### The segments of a log -/

/-- The records that a `Reader` returns from one segment, each with the number of bytes read so far,
which is where its last fragment ends. -/
def segmentRecords (P : Params) (seg : Bytes) : List (Bytes × ℕ) :=
  (Reader.readAll P segmentSource (newSegmentBufReader [seg])).1

variable {P : Params}

lemma segmentRecords_eq {seg : Bytes}
    (h : Layout P 0 .zero seg outs .zero) : segmentRecords P seg = outs := by
  refine (readAll_segments ?_).1
  rw [flatMap_singleton]
  exact h.padded.1

variable {recss : List (List Bytes)} {segs : List Bytes}

lemma exists_layout (h : Forall₂ (Holds P) segs recss) :
    ∀ seg ∈ segs, ∃ outs, Layout P 0 .zero seg outs .zero := by
  refine ((forall₂_and_left segs recss).1 (h.imp fun seg recs hseg => ⟨?_, hseg⟩)).1
  obtain ⟨outs, hl, -⟩ := hseg
  exact ⟨outs, hl⟩

lemma flatMap_segmentRecords (h : Forall₂ (Holds P) segs recss) :
    (segs.flatMap fun seg => (segmentRecords P seg).map Prod.fst) = recss.flatten := by
  induction h with
  | nil => rfl
  | cons hseg _ ih =>
    obtain ⟨outs, hl, hrecs⟩ := hseg
    rw [flatMap_cons, ih, segmentRecords_eq hl, hrecs, flatten_cons]

namespace WL

/-- However the bytes of a segment get visible, a `LiveReader` has returned a part of the records
that end in what is visible, and all of them once it reports the end. `files` are the segments
before or after the log is closed. -/
theorem log_liveReader {P : Params} (hP : P.codec.Lawful) {segmentSize : ℤ} {compress : Compression}
    {w : WL} (hw : newSize [] segmentSize compress = some w) (events : List Event) :
    ∃ w' w'', w.run P events = some w' ∧ w'.close = some w'' ∧
      ∀ files, files = w'.files ∨ files = w''.files →
        (files.flatMap fun seg => (segmentRecords P seg).map Prod.fst) = logged events ∧
        ∀ seg ∈ files, ∀ (reads : List ℕ) (n : ℕ), ∃ recs r ok r',
          LiveReader.calls P tailSource n (newLiveReader (newTail seg reads)) = some (recs, r) ∧
          recs <+: LiveReader.visible (segmentRecords P seg) r.rdr.seen ∧
          r.next P tailSource = some (ok, r') ∧
          (ok = false → r'.err = some .eof ∧
            recs = LiveReader.visible (segmentRecords P seg) r'.rdr.seen ∧
            (seg.length ≤ r'.rdr.seen → recs = (readSegments P [seg]).1)) := by
  obtain ⟨hlogged, hpage, -⟩ := logged_newSize .nil hw
  obtain ⟨w', hrun, hlogged', hflushed⟩ := hlogged.run hP (by rw [hpage]; rfl) events
  obtain ⟨w'', recss, hclose, hholds, hrecs⟩ := hlogged'.close
  obtain ⟨recss', hinv, hrecs'⟩ := hlogged'.inv
  rw [flatten_nil, nil_append] at hrecs hrecs'
  refine ⟨w', w'', hrun, hclose, fun files hfiles => ?_⟩
  obtain ⟨recss, hholds, hrecs⟩ : ∃ recss, List.Forall₂ (Holds P) files recss ∧
      recss.flatten = logged events := by
    obtain rfl | rfl := hfiles
    · -- everything that was logged has been flushed
      exact ⟨recss', contents_eq_files hflushed ▸ hinv.holds, hrecs'⟩
    · exact ⟨recss, hholds, hrecs⟩
  refine ⟨(flatMap_segmentRecords hholds).trans hrecs, fun seg hseg reads n => ?_⟩
  obtain ⟨outs, hl⟩ := exists_layout hholds seg hseg
  obtain ⟨recs, r, ok, r', hcalls, hpre, hnext, hend⟩ := LiveReader.calls_layout hl reads n
  rw [segmentRecords_eq hl]
  refine ⟨recs, r, ok, r', hcalls, hpre, hnext, fun hok => ?_⟩
  obtain ⟨herr, hall⟩ := hend hok
  refine ⟨herr, hall, fun hseen => ?_⟩
  show recs = (segmentRecords P seg).map Prod.fst
  rw [segmentRecords_eq hl, hall, LiveReader.visible, LiveReader.filter_of_done]
  intro o ho
  have := (hl.bounds o ho).2
  omega

/-- Two records in one segment, which gets visible byte by byte at first. -/
theorem log_liveReader_two :
    let P : Params := ⟨fun _ => 0, storeOnly⟩
    ∃ w w' w'', newSize [] 32768 .none = some w ∧ w.run P [.log [[1], [2, 3]]] = some w' ∧
      w'.close = some w'' ∧
      (w''.files.flatMap fun seg => (segmentRecords P seg).map Prod.fst) = [[1], [2, 3]] ∧
      ∀ seg ∈ w''.files, ∃ recs r ok r',
        LiveReader.calls P tailSource 5 (newLiveReader (newTail seg [1, 1, 1, seg.length])) =
          some (recs, r) ∧
        r.next P tailSource = some (ok, r') ∧
        (ok = false → seg.length ≤ r'.rdr.seen → recs = (readSegments P [seg]).1) := by
  intro P
  obtain ⟨w, hw⟩ := exists_newSize [] .none
  obtain ⟨w', w'', hrun, hclose, hlive⟩ := log_liveReader (P := P) storeOnly_lawful hw
    [.log [[1], [2, 3]]]
  obtain ⟨hrecs, hseg⟩ := hlive w''.files (.inr rfl)
  refine ⟨w, w', w'', hw, hrun, hclose, hrecs, fun seg hmem => ?_⟩
  obtain ⟨recs, r, ok, r', hcalls, -, hnext, hend⟩ := hseg seg hmem [1, 1, 1, seg.length] 5
  exact ⟨recs, r, ok, r', hcalls, hnext, fun hok => (hend hok).2.2⟩

end WL

end Prometheus.Wlog
