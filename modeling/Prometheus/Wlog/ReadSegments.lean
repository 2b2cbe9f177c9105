import Prometheus.Wlog.Reader

/-!
# Reading segments

From bytes with a layout, the reader returns the records of the layout (`readAll_layout`). What
`segmentBufReader` streams are the segments, one after the other, each filled with zeros to the end
of its last page (`segmentSource_streams`), and that has a layout too if each of the segments has
one. So all records of the segments are returned, and no error (`readSegments_eq`).
-/

namespace Prometheus.Wlog

open BitList List SegmentBufReader Nat Source

variable {a : Pending} {t : ℕ}

namespace Reader

/-! ### Reading a layout -/

variable {P : Params} {r : Reader Bytes} {outs : List (Bytes × ℕ)}
  {compr : Compression} {part rest : Bytes} {typ : RecType} {t : ℕ} {bs : Bytes}

variable (hpart : part.length ≤ pageSize - recordHeaderSize)
include hpart

lemma readPart_fragment
    (hr : r.rdr = (bytesOf 2 part.length ++ bytesOf 4 (P.crc part).toNat) ++ (part ++ rest)) :
    readPart P ofList r =
      (.ok part, { r with rdr := rest, total := r.total + 6 + part.length }) := by
  have hlen : ofBytes ((bytesOf 2 part.length ++ bytesOf 4 (P.crc part).toNat).take 2) =
      part.length := by
    rw [take_left' (length_bytesOf _ _), ofBytes_bytesOf, mod_eq_of_lt]
    have := pageSize_eq
    omega
  have hcrc : ofBytes ((bytesOf 2 part.length ++ bytesOf 4 (P.crc part).toNat).drop 2) =
      (P.crc part).toNat := by
    rw [drop_left' (length_bytesOf _ _), ofBytes_bytesOf, mod_eq_of_lt]
    exact (P.crc part).isLt
  have hhdr : (bytesOf 2 part.length ++ bytesOf 4 (P.crc part).toNat).length =
      recordHeaderSize - 1 := by
    rw [length_append, length_bytesOf, length_bytesOf]
    rfl
  unfold readPart
  rw [bind_ok (full_ofList_append .remainingHeader hhdr _ r hr), hlen, hcrc, if_neg (by omega),
    bind_ok (full_ofList_append .data rfl rest _ rfl),
    if_neg (by simp)]
  rfl

/-- A turn that reads a fragment which may come next. -/
lemma turn_fragment {i : ℕ} {buf : Bytes}
    (hr : r.rdr = fragment P typ compr part ++ rest) (hval : validateRecord typ i = none) :
    turn P ofList i buf r = (if typ = .last ∨ typ = .full then
        match P.codec.decode compr (buf ++ part) with
        | none => throw .decode
        | some rec => do
          setRec rec
          pure .done
      else pure (.again (i + 1) (buf ++ part)) : ReaderM Bytes Turn) { r with
          rdr := rest, total := r.total + (fragment P typ compr part).length,
          curRecTyp := typ } := by
  have htyp := isFragment_of_validateRecord hval
  have hterm : typ ≠ .pageTerm := by
    rintro rfl
    exact htyp
  have htotal : r.total + (fragment P typ compr part).length = r.total + 1 + 6 + part.length := by
    rw [length_fragment, recordHeaderSize_eq]
    omega
  rw [htotal]
  rw [fragment, append_assoc, append_assoc] at hr
  unfold turn
  rw [bind_ok (full_ofList_append .firstHeaderByte length_singleton _ r hr)]
  simp only [headD_cons, recTypeFromHeader_headerByte htyp, compressionFromHeader_headerByte htyp]
  rw [setCurRecTyp_bind, if_neg hterm, bind_ok (readPart_fragment hpart rfl)]
  generalize validateRecord typ i = invalid at hval ⊢
  subst hval
  rfl

omit hpart

lemma skipPage_pad (ht : r.total = t + 1) (hr : r.rdr = zeros (pageRest t - 1) ++ rest) :
    skipPage ofList r = (.ok (), { r with rdr := rest, total := t + pageRest t }) := by
  have hlt := mod_lt t (show 0 < pageSize by rw [pageSize_eq]; norm_num)
  unfold skipPage
  rw [getTotal_bind, ht]
  by_cases hlast : pageRest t = 1
  · -- the byte before was the last one of its page
    have hmod : (t + 1) % pageSize = 0 := by
      unfold pageRest at hlast
      rw [pageSize_eq] at *
      omega
    rw [hlast] at hr ⊢
    rw [hmod, if_pos (Nat.sub_zero _), ← ht]
    have hr : r.rdr = rest := hr
    rw [← hr]
    rfl
  have hk : pageSize - (t + 1) % pageSize = pageRest t - 1 := by
    unfold pageRest at hlast ⊢
    rw [pageSize_eq] at *
    omega
  have hne : ¬ pageRest t - 1 = pageSize := by
    unfold pageRest
    omega
  have hzero : (zeros (pageRest t - 1)).any (· != 0) = false := by simp [zeros]
  rw [hk, if_neg hne, bind_ok (full_ofList_append .remainingZeros
    (length_zeros _) rest r hr), hzero]
  have htotal : r.total + (pageRest t - 1) = t + pageRest t := by
    have := pageRest_pos t
    omega
  rw [htotal]
  rfl

/-- A turn that skips the rest of a page. -/
lemma turn_pad (i : ℕ) (buf : Bytes) (hr : r.rdr = zeros (pageRest r.total) ++ rest) :
    turn P ofList i buf r =
      (.ok (.again i buf),
        { r with rdr := rest, total := r.total + pageRest r.total, curRecTyp := .pageTerm }) := by
  have hsplit : zeros (pageRest r.total) = [0] ++ zeros (pageRest r.total - 1) := by
    obtain ⟨n, hn⟩ := exists_eq_succ_of_ne_zero (pageRest_pos r.total).ne'
    rw [hn]
    rfl
  rw [hsplit, append_assoc] at hr
  unfold turn
  rw [bind_ok (full_ofList_append .firstHeaderByte length_singleton _ r hr), setCurRecTyp_bind,
    if_pos (by decide), bind_ok (skipPage_pad rfl rfl)]
  rfl

lemma turn_part (htyp : typ = .first ∨ typ = .middle) (hval : validateRecord typ a.i = none)
    (hfits : FitsPage t part.length) (hr : r.rdr = fragment P typ compr part ++ rest) :
    turn P ofList a.i a.buf r = (.ok (.again (a.i + 1) (a.buf ++ part)), { r with
      rdr := rest, total := r.total + (fragment P typ compr part).length, curRecTyp := typ }) := by
  have hpart : part.length ≤ pageSize - recordHeaderSize := by
    unfold FitsPage at hfits
    omega
  have hmore : ¬ (typ = .last ∨ typ = .full) := by
    obtain rfl | rfl := htyp <;> decide
  rw [turn_fragment hpart hr hval, if_neg hmore]
  rfl

lemma turn_record {part rec rest : Bytes} (htyp : typ = .last ∨ typ = .full)
    (hval : validateRecord typ a.i = none)
    (hfits : FitsPage t part.length) (hdec : P.codec.decode compr (a.buf ++ part) = some rec)
    (hr : r.rdr = fragment P typ compr part ++ rest) :
    turn P ofList a.i a.buf r = (.ok .done, { r with
      rdr := rest, record := rec, total := r.total + (fragment P typ compr part).length,
      curRecTyp := typ }) := by
  have hpart : part.length ≤ pageSize - recordHeaderSize := by
    unfold FitsPage at hfits
    omega
  rw [turn_fragment hpart hr hval, if_pos htyp, hdec]
  rfl

/-- The loop goes through bytes that complete no record. -/
lemma nextList_nil {a' : Pending} (h : Layout P t a bs [] a') (ht : r.total = t)
    (hr : r.rdr = bs ++ rest) :
    a.i ≤ a'.i ∧ ∃ r', nextList P a.i a.buf r = nextList P a'.i a'.buf r' ∧ r'.rdr = rest ∧
      r'.err = r.err ∧ (r'.curRecTyp = r.curRecTyp ∨ r'.curRecTyp = .pageTerm ∨ 0 < a'.i) := by
  generalize houts : ([] : List (Bytes × ℕ)) = outs at h
  induction h generalizing r with
  | nil t a => exact ⟨le_refl _, r, rfl, hr, rfl, .inl rfl⟩
  | pad _ ih =>
    subst ht
    rw [append_assoc] at hr
    obtain ⟨hle, r', hnext, hrdr, herr, hcur⟩ := ih (r := { r with
      rdr := _, total := r.total + pageRest r.total, curRecTyp := .pageTerm }) rfl rfl houts
    exact ⟨hle, r', (nextList_again (turn_pad _ _ hr)).trans hnext, hrdr, herr,
      .inr (hcur.elim .inl id)⟩
  | part htyp hval hfits _ ih =>
    subst ht
    rw [append_assoc] at hr
    have hturn := turn_part htyp hval hfits hr
    obtain ⟨hle, r', hnext, hrdr, herr, -⟩ := ih (r :=
      { r with rdr := _, total := _, curRecTyp := _ })
      rfl rfl houts
    exact ⟨(le_succ _).trans hle, r', (nextList_again hturn).trans hnext, hrdr, herr,
      .inr (.inr (lt_of_lt_of_le (succ_pos _) hle))⟩
  | record => cases houts

/-- The loop stops at the first record that is complete. -/
lemma nextList_cons {e : ℕ} {a' : Pending} {bs rec : Bytes}
    (h : Layout P t a bs ((rec, e) :: outs) a') (ht : r.total = t) (hr : r.rdr = bs ++ rest) :
    ∃ r' bs', nextList P a.i a.buf r = (.ok (), r') ∧ r'.record = rec ∧ r'.total = e ∧
      (r'.curRecTyp = .last ∨ r'.curRecTyp = .full) ∧ r'.rdr = bs' ++ rest ∧
      Layout P e .zero bs' outs a' ∧ e + bs'.length = t + bs.length := by
  generalize houts : (rec, e) :: outs = outs' at h
  induction h generalizing r with
  | nil => cases houts
  | pad _ ih =>
    subst ht
    rw [append_assoc] at hr
    obtain ⟨r', bs', hnext, hrec, htot, hcur, hrdr, hl, hlen⟩ := ih (r := { r with
      rdr := _, total := r.total + pageRest r.total, curRecTyp := .pageTerm }) rfl rfl houts
    refine ⟨r', bs', (nextList_again (turn_pad _ _ hr)).trans hnext, hrec, htot, hcur, hrdr, hl, ?_⟩
    rw [hlen, length_append, length_zeros, add_assoc]
  | part htyp hval hfits _ ih =>
    subst ht
    rw [append_assoc] at hr
    obtain ⟨r', bs', hnext, hrec, htot, hcur, hrdr, hl, hlen⟩ := ih
      (r := { r with rdr := _, total := _, curRecTyp := _ }) rfl rfl houts
    refine ⟨r', bs', (nextList_again (turn_part htyp hval hfits hr)).trans hnext, hrec, htot, hcur,
      hrdr, hl, ?_⟩
    rw [hlen, length_append, add_assoc]
  | record htyp hval hfits hdec hl _ =>
    subst ht
    cases houts
    rw [append_assoc] at hr
    refine ⟨_, _, nextList_done (turn_record htyp hval hfits hdec hr), rfl, rfl, htyp, rfl, hl, ?_⟩
    rw [length_append, add_assoc]

lemma readLoop_layout {fuel : ℕ}
    (h : Layout P t .zero bs outs .zero) (ht : r.total = t) (hr : r.rdr = bs)
    (herr : r.err = none) (hcur : ¬ (r.curRecTyp = .first ∨ r.curRecTyp = .middle))
    (hfuel : bs.length < fuel) :
    (readLoop P ofList fuel r).1 = outs ∧ (readLoop P ofList fuel r).2.err = none := by
  induction fuel generalizing t bs outs r with
  | zero => omega
  | succ fuel ih =>
    rw [readLoop, next_ofList]
    cases outs with
    | nil =>
      -- what is left has no record, so the loop gets to the end of the bytes
      obtain ⟨-, r', hnext, hrdr, herr', hcur'⟩ := nextList_nil h ht (by rw [hr, append_nil])
      have hcur' : ¬ (r'.curRecTyp = .first ∨ r'.curRecTyp = .middle) := by
        obtain h | h | h := hcur'
        · rwa [h]
        · rw [h]
          decide
        · exact absurd h (lt_irrefl 0)
      rw [show nextList P 0 [] r = nextList P 0 [] r' from hnext, nextList_end hrdr]
      simp only [finish, ReaderError.isEOF, if_true, if_neg hcur']
      exact ⟨trivial, herr'.trans herr⟩
    | cons o outs =>
      obtain ⟨rec, e⟩ := o
      obtain ⟨r', bs', hnext, hrec, htot, hcur', hrdr, hl, hlen⟩ :=
        nextList_cons h ht (by rw [hr, append_nil])
      rw [append_nil] at hrdr
      have hbounds := h.bounds (rec, e) (by simp)
      have hcur' : ¬ (r'.curRecTyp = .first ∨ r'.curRecTyp = .middle) := by
        obtain h | h := hcur' <;> rw [h] <;> decide
      obtain ⟨houts, herr'⟩ := ih hl (r := { r' with err := none }) htot hrdr rfl hcur'
        (by dsimp only at hbounds; omega)
      rw [show nextList P 0 [] r = (.ok (), r') from hnext]
      simp only [finish]
      exact ⟨by rw [houts, hrec, htot], herr'⟩

/-- From bytes with a layout, its records are read, and then there is no error. -/
theorem readAll_layout (h : Layout P 0 .zero bs outs .zero) :
    (readAll P ofList bs).1 = outs ∧ (readAll P ofList bs).2.err = none :=
  readLoop_layout h rfl rfl rfl (by simp [newReader]) (lt_succ_self _)

end Reader

/-! ### The segments as a source -/

variable {segs : List Bytes} {n : ℕ}

namespace SegmentBufReader

lemma padding_eq_zero (h : n % pageSize = 0) : padding n = 0 := by
  rw [padding, h, Nat.sub_zero, Nat.mod_self]

lemma padding_eq_pageRest (h : n % pageSize ≠ 0) : padding n = pageRest n := by
  have hpos := pageSize_eq
  rw [padding, pageRest, mod_eq_of_lt (by omega)]

/-- Some of the zeros up to the end of a page, and the others. -/
lemma padding_add {i : ℕ} (h : n % pageSize ≠ 0) (hi : i ≤ pageSize - n % pageSize) :
    padding n = i + padding (n + i) := by
  unfold padding
  rw [pageSize_eq] at *
  omega

/-- The segment reader in state `r` still has to stream `bs`. -/
def Streaming (segs : List Bytes) (r : SegmentBufReader) (bs : Bytes) : Prop :=
  r.segs = segs ∧ 0 < r.buf.size ∧ bs = r.rest ∧
    ((segs.take r.cur).flatMap padded).length + r.off + bs.length = (segs.flatMap padded).length

/-- A read within a segment. -/
lemma Streaming.within {r r' : SegmentBufReader} {b : Bytes}
    (h : Streaming segs r r.rest) (hsegs : r'.segs = r.segs) (hcur : r'.cur = r.cur)
    (hsize : r'.buf.size = r.buf.size) (hoff : r'.off = r.off + b.length)
    (hrest : r.rest = b ++ r'.rest) : Streaming segs r' r'.rest := by
  obtain ⟨rfl, hpos, -, hsum⟩ := h
  refine ⟨hsegs, hsize ▸ hpos, rfl, ?_⟩
  rw [hrest, length_append] at hsum
  rw [hcur, hoff]
  omega

end SegmentBufReader

open SegmentBufReader in
theorem segmentSource_streams (segs : List Bytes) : segmentSource.Streams (Streaming segs) where
  read := by
    intro r _ b n eof r' hr hn h
    obtain ⟨rfl, hsize, rfl, hoff⟩ := id hr
    have h : r.read n = (b, eof, r') := h
    obtain ⟨out, e, buf', hbuf⟩ : ∃ out e buf', r.buf.read n = (out, e, buf') := ⟨_, _, _, rfl⟩
    obtain ⟨hrest, hlen, hsize', heof, hne⟩ := BufReader.read_spec hsize hn hbuf
    unfold SegmentBufReader.read at h
    simp only [hbuf] at h
    by_cases hempty : r.segs.length = 0
    · -- there are no segments
      rw [if_pos hempty] at h
      cases h
      rw [length_eq_zero_iff.1 hempty] at hoff
      have hnil : r.rest = [] := (by simpa using hoff : r.off = 0 ∧ r.rest = []).2
      rw [hnil] at hr ⊢
      exact ⟨[], rfl, zero_le n, hr, fun _ => rfl, fun h => by simp at h⟩
    rw [if_neg hempty] at h
    cases e with
    | false =>
      -- bytes from the file
      cases h
      have hsplit : r.rest = b ++ { r with buf := buf', off := r.off + b.length }.rest := by
        simp only [rest, hrest, length_append, append_assoc, add_assoc]
      refine ⟨_, hsplit, hlen, hr.within rfl rfl hsize' rfl hsplit,
        fun h => by simp at h, fun _ => ?_⟩
      have hpos := length_pos_iff.2 (hne rfl)
      have := congrArg length hsplit
      rw [length_append] at this
      show _ + (r.segs.length - r.cur) < _ + (r.segs.length - r.cur)
      omega
    | true =>
      obtain ⟨rfl, hnil⟩ := heof rfl
      rw [hnil, append_nil] at hrest
      rw [if_neg (by simp)] at h
      simp only [length_nil, add_zero, nil_append] at h
      by_cases hmod : r.off % pageSize = 0
      · rw [if_neg (not_not.2 hmod)] at h
        have hold : r.rest = (r.segs.drop (r.cur + 1)).flatMap padded := by
          simp [rest, hrest, padding_eq_zero hmod, zeros]
        split_ifs at h with hlast
        · -- the end of the last segment
          cases h
          have hnew : { r with buf := buf' }.rest = r.rest := by
            rw [hold]
            simp [rest, hnil, padding_eq_zero hmod, zeros]
          have hend : { r with buf := buf' }.rest = [] := by
            rw [hnew, hold, drop_eq_nil_of_le hlast]
            rfl
          exact ⟨_, hnew.symm, zero_le n, hr.within (b := []) rfl rfl hsize' rfl hnew.symm,
            fun _ => hend, fun h => by simp at h⟩
        -- on to the next segment
        have hlt : r.cur + 1 < r.segs.length := by omega
        have hnext : r.segs.drop (r.cur + 1) = r.segs[r.cur + 1] :: r.segs.drop (r.cur + 1 + 1) :=
          drop_eq_getElem_cons hlt
        have hget : r.segs.getD (r.cur + 1) [] = r.segs[r.cur + 1] := by simp [getD, hlt]
        rw [Prod.mk.injEq, Prod.mk.injEq, hget] at h
        obtain ⟨rfl, rfl, hr'⟩ := h
        have hnew : r'.rest = r.rest := by
          rw [hold, hnext, flatMap_cons, padded, ← hr']
          simp [rest, newReaderSize, BufReader.rest]
        refine ⟨r'.rest, hnew.symm, zero_le n, ⟨?_, ?_, rfl, ?_⟩,
          fun h => by simp at h, fun _ => ?_⟩
        · rw [← hr']
        · have := pageSize_eq
          rw [← hr']
          show 0 < 16 * pageSize
          omega
        · rw [hnew, hold, ← hr', add_zero, ← length_append, ← flatMap_append, take_append_drop]
        · show r'.rest.length + (r'.segs.length - r'.cur) < r.rest.length + (r.segs.length - r.cur)
          rw [hnew, ← hr']
          show r.rest.length + (r.segs.length - (r.cur + 1)) < _
          omega
      · -- zeros at the end of a segment
        rw [if_pos hmod] at h
        generalize hi : min n (pageSize - r.off % pageSize) = i at h
        cases h
        have hrest0 := pageRest_pos r.off
        unfold pageRest at hrest0
        have hpad := padding_add hmod (show i ≤ pageSize - r.off % pageSize by omega)
        have hsplit : r.rest = zeros i ++ { r with buf := buf', off := r.off + i }.rest := by
          simp only [rest, hrest, hnil, length_nil, add_zero, hpad, zeros, nil_append,
            append_assoc, replicate_add]
        refine ⟨_, hsplit, ?_, hr.within rfl rfl hsize' ?_ hsplit,
          fun h => by simp at h, fun _ => ?_⟩
        · rw [length_zeros]
          omega
        · rw [length_zeros]
        have := congrArg length hsplit
        rw [length_append, length_zeros] at this
        show _ + (r.segs.length - r.cur) < _ + (r.segs.length - r.cur)
        omega
  length_le := by
    rintro r _ ⟨-, -, rfl, -⟩
    exact le_add_right _ _

/-! ### Segments with layouts -/

/-- A segment that holds the records `recs`. -/
def Holds (P : Params) (seg : Bytes) (recs : List Bytes) : Prop :=
  ∃ outs, Layout P 0 .zero seg outs .zero ∧ outs.map Prod.fst = recs

open SegmentBufReader in
variable {P : Params}

variable {outs : List (Bytes × ℕ)}

/-- The zeros that are made up at the end of a segment are padding. -/
lemma Layout.padded {seg : Bytes} (h : Layout P 0 .zero seg outs .zero) :
    Layout P 0 .zero (padded seg) outs .zero ∧ (padded seg).length % pageSize = 0 := by
  by_cases hmod : seg.length % pageSize = 0
  · rw [SegmentBufReader.padded, padding_eq_zero hmod, zeros, replicate_zero, append_nil]
    exact ⟨h, hmod⟩
  rw [SegmentBufReader.padded, padding_eq_pageRest hmod]
  have happ := h.append (Layout.zeros_pageRest (0 + seg.length) .zero)
  rw [append_nil, zero_add] at happ
  refine ⟨happ, ?_⟩
  rw [length_append, length_zeros]
  unfold pageRest
  rw [pageSize_eq]
  omega

variable {recss : List (List Bytes)}

/-- Segments, one after the other, have a layout too. -/
lemma layout_segments (h : Forall₂ (Holds P) segs recss) (ht : t % pageSize = 0) :
    ∃ outs, Layout P t .zero (segs.flatMap padded) outs .zero ∧
      outs.map Prod.fst = recss.flatten := by
  induction h generalizing t with
  | nil => exact ⟨[], .nil _ _, rfl⟩
  | @cons seg recs segs recss hseg _ ih =>
    obtain ⟨outs, hl, hrecs⟩ := hseg
    obtain ⟨hl, hmod⟩ := hl.padded
    obtain ⟨outs, hl, hshift⟩ := hl.shift t (by rw [ht, zero_mod])
    obtain ⟨outs', hl', hrecs'⟩ := ih (t := t + (padded seg).length)
      (by rw [add_mod, ht, hmod, zero_mod])
    refine ⟨outs ++ outs', hl.append hl', ?_⟩
    rw [map_append, hshift, hrecs, hrecs', flatten_cons]

lemma streaming_new (segs : List Bytes) :
    Streaming segs (newSegmentBufReader segs) (segs.flatMap padded) := by
  have hrest : segs.flatMap padded = (newSegmentBufReader segs).rest := by
    cases segs with
    | nil =>
      simp [rest, newSegmentBufReader, newReaderSize, BufReader.rest,
        padding_eq_zero (zero_mod _), zeros]
    | cons seg segs =>
      rw [flatMap_cons, padded]
      simp [rest, newSegmentBufReader, newReaderSize, BufReader.rest]
  have hsize := pageSize_eq
  refine ⟨rfl, ?_, hrest, ?_⟩
  · show 0 < 16 * pageSize
    omega
  · simp [newSegmentBufReader]

/-- A reader returns the records of all segments and no error. -/
lemma readAll_segments (h : Layout P 0 .zero (segs.flatMap padded) outs .zero) :
    (Reader.readAll P segmentSource (newSegmentBufReader segs)).1 = outs ∧
      (Reader.readAll P segmentSource (newSegmentBufReader segs)).2.err = none := by
  obtain ⟨bs', -, hsim⟩ := Reader.readAll_sim (segmentSource_streams segs) P (streaming_new segs)
  have hread := Reader.readAll_layout h
  rw [hsim] at hread
  exact hread

theorem readSegments_eq
    (h : Forall₂ (Holds P) segs recss) : readSegments P segs = (recss.flatten, none) := by
  obtain ⟨outs, hl, hrecs⟩ := layout_segments h (zero_mod pageSize)
  obtain ⟨houts, herr⟩ := readAll_segments hl
  show (((Reader.readAll P segmentSource (newSegmentBufReader segs)).1).map Prod.fst,
    (Reader.readAll P segmentSource (newSegmentBufReader segs)).2.err) = _
  rw [houts, herr, hrecs]

/-- Records that fit into one page together. -/
lemma layout_full (recs : List Bytes)
    (h : t + (recs.flatMap (fragment P .full .none)).length ≤ pageSize) :
    ∃ outs, Layout P t .zero (recs.flatMap (fragment P .full .none)) outs .zero ∧
      outs.map Prod.fst = recs := by
  induction recs generalizing t with
  | nil => exact ⟨[], .nil _ _, rfl⟩
  | cons rec recs ih =>
    have hlen := length_fragment P .full .none rec
    rw [flatMap_cons, length_append] at h
    obtain ⟨outs, hl, hrecs⟩ := ih (t := t + (fragment P .full .none rec).length) (by omega)
    have hfits : FitsPage t rec.length := by
      have hmod := mod_le t pageSize
      unfold FitsPage
      omega
    exact ⟨_, .record (Or.inr rfl) rfl hfits (P.codec.decode_none rec) hl, by rw [map_cons, hrecs]⟩

lemma readSegments_full (recs : List Bytes)
    (h : (recs.flatMap (fragment P .full .none)).length ≤ pageSize) :
    readSegments P [recs.flatMap (fragment P .full .none)] = (recs, none) := by
  have hholds : Holds P (recs.flatMap (fragment P .full .none)) recs :=
    layout_full recs ((zero_add _).trans_le h)
  rw [readSegments_eq (.cons hholds .nil), flatten_singleton]

end Prometheus.Wlog
