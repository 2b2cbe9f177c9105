import Prometheus.Wlog.ReadSegments

/-!
# Writing the write-ahead log

`WL` of `tsdb/wlog/wlog.go`, without I/O errors: a page in memory that takes the fragments of the
records, and the segment files, to the last of which the page is flushed.

The writer keeps the files and what is in the page but not yet flushed in a layout (`WL.Inv`), so
that what is logged is what is read (`log_readSegments`).
-/

namespace Prometheus.Wlog

open List Nat

/-! ### WL -/

/-- `page`: `buf` is the first `alloc` bytes of the buffer, and the others are zero. -/
structure Page where
  buf : Bytes
  flushed : ℕ

/-- `page.full`. -/
def Page.full (p : Page) : Bool := pageSize - p.buf.length < recordHeaderSize

/-- The fields of `WL`, and the segment files of its directory, where file `i` is segment `i`. -/
structure WL where
  segmentSize : ℤ
  compress : Compression
  files : List Bytes
  segment : ℕ
  donePages : ℕ
  page : Page
  closed : Bool

variable {bs c : Bytes} {outs : List (Bytes × ℕ)} {files : List Bytes}

namespace WL

/-- `CreateSegment`, which opens a file that exists. All callers create at most the segment after
the last one. -/
def createSegment (k : ℕ) (files : List Bytes) : List Bytes :=
  if k < files.length then files else files ++ [[]]

/-- `setSegment`, with the segment created. -/
def setSegment (k : ℕ) (w : WL) : WL :=
  let files := createSegment k w.files
  { w with files := files, segment := k, donePages := (files.getD k []).length / pageSize }

/-- `NewSize` over a directory with the given segments. Without a result, the segment size is
invalid. -/
def newSize (files : List Bytes) (segmentSize : ℤ) (compress : Compression) : Option WL :=
  if segmentSize.tmod pageSize ≠ 0 then none
  else some (setSegment files.length ⟨segmentSize, compress, files, 0, 0, ⟨[], 0⟩, false⟩)

/-- `segment.Write`. -/
def write (bs : Bytes) (w : WL) : WL := { w with files := w.files.modify w.segment (· ++ bs) }

/-- `flushPage`. -/
def flushPage (forceClear : Bool) (w : WL) : WL :=
  let p := w.page
  if forceClear || p.full then
    let buf := p.buf ++ zeros (pageSize - p.buf.length)
    { w.write (buf.drop p.flushed) with page := ⟨[], 0⟩, donePages := w.donePages + 1 }
  else { w.write (p.buf.drop p.flushed) with page := { p with flushed := p.buf.length } }

/-- `nextSegment`. Without a result, the log is closed. -/
def nextSegment (w : WL) : Option WL :=
  if w.closed then none
  else
    let w := if w.page.buf.length > 0 then w.flushPage true else w
    some (w.setSegment (w.segment + 1))

/-- `pagesPerSegment`. -/
def pagesPerSegment (w : WL) : ℤ := w.segmentSize.tdiv pageSize

/-- How many bytes of a record still fit into the active segment. -/
def left (w : WL) : ℤ :=
  ((pageSize : ℤ) - w.page.buf.length - recordHeaderSize) +
    ((pageSize : ℤ) - recordHeaderSize) * (w.pagesPerSegment - w.donePages - 1)

variable (P : Params)

/-- The encoded record and the compression that is used for it. -/
def encodeRecord (compress : Compression) (rec : Bytes) : Bytes × Compression :=
  let enc := P.codec.encode compress rec
  if compress ≠ .none then
    if (rec.length : ℤ) - enc.length ≤ 0 then (rec, .none) else (enc, compress)
  else (enc, compress)

/-- The type of fragment number `i` of a record. -/
def fragmentType (i : ℕ) (isLast : Bool) : RecType :=
  if i = 0 ∧ isLast then .full
  else if isLast then .last
  else if i = 0 then .first
  else .middle

/-- The bytes of a fragment are added to the page, and a page that is full then is flushed. -/
def put (bs : Bytes) (w : WL) : WL :=
  let w := { w with page := { w.page with buf := w.page.buf ++ bs } }
  if w.page.full then w.flushPage true else w

/-- The loop that splits a record. Only the first fragment can be empty, so that there are at most
two more than bytes. -/
def logLoop (P : Params) (compr : Compression) : ℕ → ℕ → Bytes → WL → WL
  | 0, _, _, w => w
  | fuel + 1, i, enc, w =>
    let l := min enc.length (pageSize - w.page.buf.length - recordHeaderSize)
    let part := enc.take l
    let typ := fragmentType i (part.length = enc.length)
    let w := w.put (fragment P typ compr part)
    let enc := enc.drop l
    if enc.length > 0 then logLoop P compr fuel (i + 1) enc w else w

/-- Write an encoded record. If it is the last one of a batch, the page is flushed. -/
def store (enc : Bytes × Compression) (final : Bool) (w : WL) : WL :=
  let w := logLoop P enc.2 (enc.1.length + 2) 0 enc.1 w
  if final ∧ w.page.buf.length > 0 then w.flushPage false else w

/-- `log`. -/
def log (rec : Bytes) (final : Bool) (w : WL) : Option WL := do
  let w := if w.page.full then w.flushPage true else w
  let enc := encodeRecord P w.compress rec
  let w ← if (enc.1.length : ℤ) > w.left then w.nextSegment else some w
  return w.store P enc final

/-- `Log`. -/
def logBatch (P : Params) : List Bytes → WL → Option WL
  | [], w => some w
  | rec :: recs, w => do logBatch P recs (← w.log P rec (recs.length = 0))

/-- `Close`. Without a result, the log is closed already. -/
def close (w : WL) : Option WL :=
  if w.closed then none
  else
    let w := if w.page.buf.length > 0 then w.flushPage true else w
    some { w with closed := true }

/-- What the users of a log do before they close it. -/
inductive Event
  | log (recs : List Bytes)
  | nextSegment

def step (w : WL) : Event → Option WL
  | .log recs => w.logBatch P recs
  | .nextSegment => w.nextSegment

def run (events : List Event) (w : WL) : Option WL := events.foldlM (step P) w

/-- The records that are logged, in order. -/
def logged (events : List Event) : List Bytes :=
  events.flatMap fun
    | .log recs => recs
    | .nextSegment => []

/-! ### The active segment -/

/-- The segments as they are once the page is flushed. -/
def contents (w : WL) : List Bytes := w.files.modify w.segment (· ++ w.page.buf.drop w.page.flushed)

/-- The active segment has content `c`, and the page is at the end of it. -/
structure At (w : WL) (c : Bytes) : Prop where
  active : w.contents[w.segment]? = some c
  length : c.length = w.donePages * pageSize + w.page.buf.length
  flushed_le : w.page.flushed ≤ w.page.buf.length

/-- The only difference between `w` and `w'` is that `bs` is added to the active segment. -/
structure Grows (w w' : WL) (bs : Bytes) : Prop where
  contents : w'.contents = w.contents.modify w.segment (· ++ bs)
  segment : w'.segment = w.segment
  segmentSize : w'.segmentSize = w.segmentSize
  compress : w'.compress = w.compress
  closed : w'.closed = w.closed

lemma modify_append_nil {α : Type} (l : List (List α)) (i : ℕ) : l.modify i (· ++ []) = l := by
  rw [show (fun c : List α => c ++ []) = id from funext append_nil, modify_id]

lemma modify_append_append (files : List Bytes) (i : ℕ) (bs bs' : Bytes) :
    (files.modify i (· ++ bs)).modify i (· ++ bs') = files.modify i (· ++ (bs ++ bs')) := by
  rw [modify_modify_eq]
  congr 1
  funext c
  exact append_assoc c bs bs'

variable {w : WL} {c : Bytes} {P : Params} {i : ℕ} {recss : List (List Bytes)} {rec : Bytes}
    {recs : List Bytes} {w w' : WL}

/-- Once the page is flushed, the segments are what is in the files. -/
lemma contents_eq_files (h : w.page.flushed = w.page.buf.length) : w.contents = w.files := by
  rw [contents, h, drop_length, modify_append_nil]

lemma Grows.refl (w : WL) : Grows w w [] :=
  ⟨(modify_append_nil _ _).symm, rfl, rfl, rfl, rfl⟩

lemma Grows.trans {w w' w'' : WL} {bs' : Bytes} (h : Grows w w' bs) (h' : Grows w' w'' bs') :
    Grows w w'' (bs ++ bs') := by
  refine ⟨?_, h'.segment.trans h.segment, h'.segmentSize.trans h.segmentSize,
    h'.compress.trans h.compress, h'.closed.trans h.closed⟩
  rw [h'.contents, h.contents, h.segment, modify_append_append]

lemma Grows.active (h : Grows w w' bs) (hw : w.contents[w.segment]? = some c) :
    w'.contents[w'.segment]? = some (c ++ bs) := by
  rw [h.segment, h.contents, getElem?_modify, hw]
  simp

/-- A flush that clears the page fills the segment up to the end of the page. -/
lemma flushPage_true (hw : w.At c) (hle : w.page.buf.length ≤ pageSize) :
    Grows w (w.flushPage true) (zeros (pageSize - w.page.buf.length)) ∧
      (w.flushPage true).At (c ++ zeros (pageSize - w.page.buf.length)) ∧
      (w.flushPage true).page = ⟨[], 0⟩ := by
  have hpage : (w.flushPage true).page = ⟨[], 0⟩ := by simp [flushPage]
  have hgrows : Grows w (w.flushPage true) (zeros (pageSize - w.page.buf.length)) := by
    refine ⟨?_, rfl, rfl, rfl, rfl⟩
    rw [contents_eq_files (by rw [hpage]; rfl), contents, modify_append_append,
      ← drop_append_of_le_length hw.flushed_le]
    rfl
  refine ⟨hgrows, ⟨hgrows.active hw.active, ?_, by rw [hpage]; rfl⟩, hpage⟩
  rw [length_append, length_zeros, hw.length, hpage]
  show _ = (w.donePages + 1) * pageSize + 0
  rw [succ_mul]
  omega

/-- A flush that does not clear the page leaves the segment as it is. -/
lemma flushPage_false (hw : w.At c) (hfull : w.page.full = false) :
    Grows w (w.flushPage false) [] ∧ (w.flushPage false).At c ∧
      (w.flushPage false).page = ⟨w.page.buf, w.page.buf.length⟩ := by
  have hflush : w.flushPage false =
      { w.write (w.page.buf.drop w.page.flushed) with
        page := ⟨w.page.buf, w.page.buf.length⟩ } := by
    simp [flushPage, hfull]
  have hgrows : Grows w (w.flushPage false) [] := by
    rw [hflush]
    refine ⟨?_, rfl, rfl, rfl, rfl⟩
    rw [contents_eq_files rfl, modify_append_nil]
    rfl
  refine ⟨hgrows, ⟨?_, ?_, ?_⟩, ?_⟩
  · rw [hgrows.active hw.active, append_nil]
  · rw [hflush]
    exact hw.length
  · rw [hflush]
  · rw [hflush]

/-- What is left of the page where a segment ends. -/
lemma layout_fill {t d n : ℕ} (ht : t = d * pageSize + n) (hn : n ≤ pageSize) (a : Pending) :
    Layout P t a (zeros (pageSize - n)) [] a := by
  obtain rfl | hlt := hn.eq_or_lt
  · rw [Nat.sub_self]
    exact .nil t a
  have hmod : t % pageSize = n := by rw [ht, mul_add_mod', mod_eq_of_lt hlt]
  have h := Layout.zeros_pageRest (P := P) t a
  rwa [pageRest, hmod] at h

lemma full_eq_true {p : Page} : p.full = true ↔ pageSize - p.buf.length < recordHeaderSize :=
  decide_eq_true_iff

/-- Adding a fragment that fits into the page. -/
lemma put_spec {a a' : Pending} (hw : w.At c) (hle : w.page.buf.length + bs.length ≤ pageSize)
    (hbs : Layout P c.length a bs outs a') :
    ∃ bs', Grows w (w.put bs) bs' ∧ (w.put bs).At (c ++ bs') ∧ Layout P c.length a bs' outs a' ∧
      (w.put bs).page.buf.length + recordHeaderSize ≤ pageSize ∧
      (pageSize < w.page.buf.length + bs.length + recordHeaderSize → (w.put bs).page.buf = []) := by
  generalize hw1 : ({ w with page := { w.page with buf := w.page.buf ++ bs } } : WL) = w1
  have hlen1 : w1.page.buf.length = w.page.buf.length + bs.length := by
    rw [← hw1, length_append]
  have hgrows : Grows w w1 bs := by
    rw [← hw1]
    refine ⟨?_, rfl, rfl, rfl, rfl⟩
    rw [contents, contents, modify_append_append, ← drop_append_of_le_length hw.flushed_le]
  have hat : w1.At (c ++ bs) := by
    refine ⟨hgrows.active hw.active, ?_, ?_⟩
    · rw [length_append, hw.length, hlen1, ← hw1, add_assoc]
    · rw [hlen1, ← hw1]
      exact le_trans hw.flushed_le (le_add_right _ _)
  have hput : w.put bs = if w1.page.full then w1.flushPage true else w1 := by rw [← hw1]; rfl
  rw [hput]
  split_ifs with hfull
  · obtain ⟨hgrows', hat', hpage⟩ := flushPage_true hat (by omega)
    refine ⟨bs ++ zeros (pageSize - w1.page.buf.length),
      hgrows.trans hgrows', ?_, ?_, ?_, fun _ => ?_⟩
    · rwa [← append_assoc]
    · have hfill := layout_fill (P := P) (t := c.length + bs.length)
        (show _ = w.donePages * pageSize + w1.page.buf.length by rw [hw.length, hlen1]; omega)
        (by omega) a'
      have := hbs.append hfill
      rwa [append_nil] at this
    · rw [hpage, pageSize_eq]
      decide
    · rw [hpage]
  · rw [full_eq_true, recordHeaderSize_eq] at hfull
    refine ⟨bs, hgrows, hat, hbs, ?_, fun h => ?_⟩
    · rw [recordHeaderSize_eq]
      omega
    · rw [recordHeaderSize_eq] at h
      omega

lemma validateRecord_fragmentType (i : ℕ) (isLast : Bool) :
    validateRecord (fragmentType i isLast) i = none := by
  unfold fragmentType
  split_ifs with h <;> simp_all [validateRecord]

/-- The loop that splits a record: the fragments, and zeros at the ends of the pages. -/
lemma logLoop_spec {compr : Compression} {rec enc : Bytes} {fuel : ℕ}
    {a : Pending} (hw : w.At c) (hroom : w.page.buf.length + recordHeaderSize ≤ pageSize)
    (hdec : P.codec.decode compr (a.buf ++ enc) = some rec)
    (hfuel : enc.length + (if w.page.buf = [] then 0 else 1) < fuel) :
    ∃ bs e, Grows w (logLoop P compr fuel a.i enc w) bs ∧
    (logLoop P compr fuel a.i enc w).At (c ++ bs) ∧
      Layout P c.length a bs [(rec, e)] .zero ∧
      (logLoop P compr fuel a.i enc w).page.buf.length + recordHeaderSize ≤ pageSize := by
  induction fuel generalizing enc w c a with
  | zero => omega
  | succ fuel ih =>
    have hmod : c.length % pageSize = w.page.buf.length := by
      rw [hw.length, mul_add_mod', mod_eq_of_lt]
      rw [recordHeaderSize_eq] at hroom
      omega
    have hsize := pageSize_eq
    generalize hl : min enc.length (pageSize - w.page.buf.length - recordHeaderSize) = l
    have hpart : (enc.take l).length = l := length_take_of_le (by omega)
    generalize htyp : fragmentType a.i ((enc.take l).length = enc.length) = typ
    have hval : validateRecord typ a.i = none := htyp ▸ validateRecord_fragmentType _ _
    have hfits : FitsPage c.length (enc.take l).length := by
      rw [FitsPage, hmod, hpart]
      omega
    have hle : w.page.buf.length + (fragment P typ compr (enc.take l)).length ≤ pageSize := by
      rw [length_fragment, hpart]
      omega
    have hloop : logLoop P compr (fuel + 1) a.i enc w = if (enc.drop l).length > 0 then
          logLoop P compr fuel (a.i + 1) (enc.drop l) (w.put (fragment P typ compr (enc.take l)))
        else w.put (fragment P typ compr (enc.take l)) := by
      rw [logLoop, hl, htyp]
    rw [hloop]
    by_cases hlast : l = enc.length
    · -- the last fragment
      have hend : typ = .last ∨ typ = .full := by
        rw [← htyp, hpart, hlast]
        unfold fragmentType
        split_ifs <;> simp_all
      have hfrag := Layout.record hend hval hfits (by rwa [hlast, take_length]) (.nil _ _)
      rw [append_nil] at hfrag
      obtain ⟨bs, hgrows, hat, hbs, hroom', -⟩ := put_spec hw hle hfrag
      rw [if_neg (by simp [hlast])]
      exact ⟨bs, _, hgrows, hat, hbs, hroom'⟩
    -- the page is full after this fragment, so that the next one starts a page
    have hmore : typ = .first ∨ typ = .middle := by
      rw [← htyp, hpart]
      unfold fragmentType
      split_ifs <;> simp_all
    have hfrag : Layout P c.length a (fragment P typ compr (enc.take l) ++ []) [] _ :=
      .part hmore hval hfits (.nil _ _)
    rw [append_nil] at hfrag
    obtain ⟨bs, hgrows, hat, hbs, hroom', hnil⟩ := put_spec hw hle hfrag
    have hnil : (w.put (fragment P typ compr (enc.take l))).page.buf = [] := hnil (by
      rw [length_fragment, hpart, recordHeaderSize_eq] at *
      omega)
    have hdrop : (enc.drop l).length = enc.length - l := length_drop
    obtain ⟨bs', e, hgrows', hat', hbs', hroom''⟩ :=
      ih (a := ⟨a.i + 1, a.buf ++ enc.take l⟩) hat hroom'
        (by rwa [append_assoc, take_append_drop]) (by
          rw [hnil, if_pos rfl, hdrop]
          split_ifs at hfuel with hempty
          · rw [hempty, recordHeaderSize_eq, length_nil] at hl
            omega
          · omega)
    rw [if_pos (by omega)]
    refine ⟨bs ++ bs', e, hgrows.trans hgrows', ?_, ?_, hroom''⟩
    · rwa [← append_assoc]
    · rw [length_append] at hbs'
      exact hbs.append hbs'

/-! ### The invariant -/

lemma encodeRecord_decode (hP : P.codec.Lawful) (compress : Compression) (rec : Bytes) :
    P.codec.decode (encodeRecord P compress rec).2 (encodeRecord P compress rec).1 = some rec := by
  unfold encodeRecord
  dsimp only
  split_ifs
  · exact P.codec.decode_none rec
  · exact hP compress rec
  · exact hP compress rec

/-- The segments hold the records `recss`, and the page is at the end of the active segment. -/
structure Inv (P : Params) (w : WL) (recss : List (List Bytes)) : Prop where
  holds : List.Forall₂ (Holds P) w.contents recss
  exists_at : ∃ c, w.At c
  room : w.page.buf.length + recordHeaderSize ≤ pageSize
  /-- The segments that may be opened later end with a page. -/
  aligned : ∀ i f, w.segment < i → w.files[i]? = some f → f.length % pageSize = 0
  opened : w.closed = false

lemma getElem?_contents (h : i ≠ w.segment) : w.contents[i]? = w.files[i]? := by
  rw [contents, getElem?_modify]
  simp [h.symm]

lemma length_contents (w : WL) : w.contents.length = w.files.length := length_modify _ _ _

lemma At.segment_lt (h : w.At c) : w.segment < w.files.length := by
  rw [← length_contents]
  exact (List.getElem?_eq_some_iff.1 h.active).1

lemma forall₂_modify {α β : Type} {R : α → β → Prop} {l : List α} {l' : List β}
    (h : Forall₂ R l l') {f : α → α} {g : β → β} {a : α} (ha : l[i]? = some a)
    (hfg : ∀ b, R a b → R (f a) (g b)) : Forall₂ R (l.modify i f) (l'.modify i g) := by
  induction h generalizing i with
  | nil => cases ha
  | cons hab htail ih =>
    cases i with
    | zero =>
      cases ha
      exact .cons (hfg _ hab) htail
    | succ i => exact .cons hab (ih ha)

/-- Whole records are added to the active segment. -/
lemma Inv.grow (h : Inv P w recss) (hc : w.At c) (hgrows : Grows w w' bs)
    (hat : w'.At (c ++ bs)) (hbs : Layout P c.length .zero bs outs .zero)
    (hroom : w'.page.buf.length + recordHeaderSize ≤ pageSize) :
    Inv P w' (recss.modify w.segment (· ++ outs.map Prod.fst)) where
  holds := by
    rw [hgrows.contents]
    refine forall₂_modify h.holds hc.active ?_
    rintro _ ⟨outs', hl, rfl⟩
    refine ⟨outs' ++ outs, hl.append ((zero_add c.length).symm ▸ hbs), map_append⟩
  exists_at := ⟨_, hat⟩
  room := hroom
  aligned i f hi hf := by
    rw [hgrows.segment] at hi
    refine h.aligned i f hi ?_
    rw [← getElem?_contents (by rw [hgrows.segment]; omega), hgrows.contents, getElem?_modify,
      getElem?_contents (by omega)] at hf
    simpa [hi.ne] using hf
  opened := hgrows.closed.trans h.opened

/-- The page is flushed and empty, with the same records in the segments. -/
structure Cleared (P : Params) (w w' : WL) (recss : List (List Bytes)) : Prop where
  inv : Inv P w' recss
  page : w'.page = ⟨[], 0⟩
  grows : ∃ bs, Grows w w' bs

/-- After a flush, the files hold all records. -/
lemma Inv.flushPage_true (h : Inv P w recss) : Cleared P w (w.flushPage true) recss := by
  obtain ⟨c, hc⟩ := h.exists_at
  have hle : w.page.buf.length ≤ pageSize := by
    have := h.room
    omega
  obtain ⟨hgrows, hat, hpage⟩ := WL.flushPage_true hc hle
  have hinv := h.grow hc hgrows hat (layout_fill hc.length hle _) (by
    rw [hpage, pageSize_eq]
    decide)
  rw [map_nil, modify_append_nil] at hinv
  exact ⟨hinv, hpage, _, hgrows⟩

/-- The records of the segments when segment `k` is created. -/
def createRecs (k : ℕ) (recss : List (List Bytes)) : List (List Bytes) :=
  if k < recss.length then recss else recss ++ [[]]

lemma holds_nil (P : Params) : Holds P [] [] := ⟨[], .nil _ _, rfl⟩

lemma holds_createSegment (h : Forall₂ (Holds P) files recss) (k : ℕ) :
    Forall₂ (Holds P) (createSegment k files) (createRecs k recss) := by
  unfold createSegment createRecs
  rw [h.length_eq]
  split_ifs
  · exact h
  · exact rel_append h (.cons (holds_nil P) .nil)

/-- A segment that is opened with an empty page. -/
lemma inv_setSegment {k : ℕ}
    (h : Forall₂ (Holds P) w.files recss) (hpage : w.page = ⟨[], 0⟩) (hk : k ≤ w.files.length)
    (haligned : ∀ i f, k ≤ i → w.files[i]? = some f → f.length % pageSize = 0)
    (hopened : w.closed = false) : Inv P (w.setSegment k) (createRecs k recss) := by
  have hpage' : (w.setSegment k).page = ⟨[], 0⟩ := hpage
  have hcontents : (w.setSegment k).contents = createSegment k w.files :=
    contents_eq_files (by rw [hpage']; rfl)
  have haligned' : ∀ i f, k ≤ i → (createSegment k w.files)[i]? = some f →
    f.length % pageSize = 0 := by
    intro i f hi hf
    unfold createSegment at hf
    split_ifs at hf with hlt
    · exact haligned i f hi hf
    rw [getElem?_append_right (by omega)] at hf
    have := mem_of_getElem? hf
    simp at this
    rw [this]
    exact zero_mod _
  have hlt : k < (createSegment k w.files).length := by
    unfold createSegment
    split_ifs with hlt
    · exact hlt
    · rw [length_append, length_singleton]
      omega
  refine ⟨?_, ⟨(createSegment k w.files)[k], ?_, ?_, ?_⟩, ?_,
    fun i f hi hf => haligned' i f hi.le hf, hopened⟩
  · rw [hcontents]
    exact holds_createSegment h k
  · rw [hcontents]
    exact getElem?_eq_getElem hlt
  · rw [hpage']
    show _ = ((createSegment k w.files).getD k []).length / pageSize * pageSize + 0
    rw [getD_eq_getElem _ _ hlt, Nat.add_zero, Nat.div_mul_cancel]
    exact Nat.dvd_of_mod_eq_zero (haligned' k _ (Nat.le_refl k) (getElem?_eq_getElem hlt))
  · rw [hpage']
    exact le_refl _
  · rw [hpage', pageSize_eq]
    decide

/-- The active segment gets a record. -/
lemma Inv.store (h : Inv P w recss)
    {enc : Bytes × Compression} (hdec : P.codec.decode enc.2 enc.1 = some rec) (final : Bool) :
    Inv P (w.store P enc final) (recss.modify w.segment (· ++ [rec])) ∧
      (∃ bs, Grows w (w.store P enc final) bs) ∧
      (final = true → (w.store P enc final).page.flushed =
      (w.store P enc final).page.buf.length) := by
  obtain ⟨c, hc⟩ := h.exists_at
  obtain ⟨bs, e, hgrows, hat, hbs, hroom⟩ := logLoop_spec (a := .zero) hc h.room
    (by rwa [Pending.zero, nil_append]) (show _ < enc.1.length + 2 by split_ifs <;> omega)
  have hinv := h.grow hc hgrows hat hbs hroom
  generalize hw' : logLoop P enc.2 (enc.1.length + 2) Pending.zero.i enc.1 w = w' at *
  have hstore : w.store P enc final =
      if final ∧ w'.page.buf.length > 0 then w'.flushPage false else w' := by
    rw [← hw']
    rfl
  rw [hstore]
  split_ifs with hflush
  · have hfull : w'.page.full = false := by
      rw [Bool.eq_false_iff, ne_eq, full_eq_true, not_lt]
      exact le_sub_of_add_le (by rwa [add_comm])
    obtain ⟨hgrows', hat', hpage⟩ := flushPage_false hat hfull
    have hinv' := hinv.grow hat hgrows' (by rwa [append_nil]) (.nil _ _) (by rwa [hpage])
    rw [map_nil, modify_append_nil] at hinv'
    exact ⟨hinv', ⟨_, hgrows.trans hgrows'⟩, fun _ => by rw [hpage]⟩
  · refine ⟨hinv, ⟨bs, hgrows⟩, fun hfinal => ?_⟩
    have hle := hat.flushed_le
    rw [not_and, not_lt] at hflush
    have hnil := hflush hfinal
    omega

lemma Inv.clear (h : Inv P w recss) :
    Cleared P w (if w.page.buf.length > 0 then w.flushPage true else w) recss := by
  obtain ⟨c, hc⟩ := h.exists_at
  split_ifs with hpos
  · exact h.flushPage_true
  have hle := hc.flushed_le
  have hbuf : w.page.buf = [] := length_eq_zero_iff.1 (by omega)
  have hflushed : w.page.flushed = 0 := by omega
  refine ⟨h, ?_, [], Grows.refl w⟩
  rw [← hbuf, ← hflushed]

lemma Cleared.contents_eq (h : Cleared P w w' recss) : w'.contents = w'.files :=
  contents_eq_files (by rw [h.page]; rfl)

lemma Inv.nextSegment (h : Inv P w recss) :
    ∃ w', w.nextSegment = some w' ∧ Inv P w' (createRecs (w.segment + 1) recss) ∧
      w'.segment = w.segment + 1 ∧ w'.page = ⟨[], 0⟩ ∧ w'.segmentSize = w.segmentSize ∧
      w'.compress = w.compress := by
  have hclear := h.clear
  generalize hw1 : (if w.page.buf.length > 0 then w.flushPage true else w) = w1 at hclear
  obtain ⟨bs, hgrows⟩ := hclear.grows
  obtain ⟨c, hc⟩ := hclear.inv.exists_at
  have hnext : w.nextSegment = some (w1.setSegment (w1.segment + 1)) := by
    rw [WL.nextSegment, h.opened, ← hw1]
    rfl
  have hholds := hclear.inv.holds
  rw [hclear.contents_eq] at hholds
  have hinv := inv_setSegment hholds hclear.page hc.segment_lt hclear.inv.aligned hclear.inv.opened
  rw [hgrows.segment] at hinv hnext
  exact ⟨_, hnext, hinv, rfl, hclear.page, hgrows.segmentSize, hgrows.compress⟩

lemma Inv.not_full (h : Inv P w recss) : w.page.full = false := by
  rw [Bool.eq_false_iff, ne_eq, full_eq_true, not_lt]
  exact le_sub_of_add_le (by rw [add_comm]; exact h.room)

/-- The record is too long for what is left of the active segment. -/
def Rolls (P : Params) (w : WL) (rec : Bytes) : Prop :=
  ((encodeRecord P w.compress rec).1.length : ℤ) > w.left

/-- A record that goes to the active segment. -/
lemma Inv.log_stay (hP : P.codec.Lawful)
    (h : Inv P w recss) (hroll : ¬ Rolls P w rec) (final : Bool) :
    ∃ w', w.log P rec final = some w' ∧ Inv P w' (recss.modify w.segment (· ++ [rec])) ∧
      (∃ bs, Grows w w' bs) ∧ (final = true → w'.page.flushed = w'.page.buf.length) := by
  refine ⟨_, ?_, h.store (encodeRecord_decode hP w.compress rec) final⟩
  have hroll : ¬ ((encodeRecord P w.compress rec).1.length : ℤ) > w.left := hroll
  simp [WL.log, h.not_full, if_neg hroll]

/-- A record that starts the next segment. -/
lemma Inv.log_roll (hP : P.codec.Lawful)
    (h : Inv P w recss) (hroll : Rolls P w rec) (final : Bool) :
    ∃ w1 w', w.nextSegment = some w1 ∧ w1.segment = w.segment + 1 ∧ w1.segmentSize = w.segmentSize ∧
      w1.compress = w.compress ∧ w.log P rec final = some w' ∧
      Inv P w' ((createRecs (w.segment + 1) recss).modify (w.segment + 1) (· ++ [rec])) ∧
      (∃ bs, Grows w1 w' bs) ∧ (final = true → w'.page.flushed = w'.page.buf.length) := by
  obtain ⟨w1, hnext, hinv, hseg, -, hsize, hcompress⟩ := h.nextSegment
  have hstore := hinv.store (encodeRecord_decode hP w.compress rec) final
  rw [hseg] at hstore
  refine ⟨w1, _, hnext, hseg, hsize, hcompress, ?_, hstore⟩
  have hroll : ((encodeRecord P w.compress rec).1.length : ℤ) > w.left := hroll
  simp [WL.log, h.not_full, if_pos hroll, hnext]

/-! ### Whole runs -/

/-- `recs` has been logged, and the active segment is the last one. -/
structure Logged (P : Params) (w : WL) (recs : List Bytes) : Prop where
  inv : ∃ recss, Inv P w recss ∧ recss.flatten = recs
  atEnd : w.segment + 1 = w.files.length

lemma Inv.length_eq (h : Inv P w recss) : w.files.length = recss.length := by
  rw [← length_contents, h.holds.length_eq]

lemma flatten_modify_last (h : i + 1 = recss.length) (rec : Bytes) :
    (recss.modify i (· ++ [rec])).flatten = recss.flatten ++ [rec] := by
  induction recss generalizing i with
  | nil => simp at h
  | cons recs recss ih =>
    cases i with
    | zero =>
      obtain rfl : recss = [] := by simpa using h
      simp
    | succ i => simp [ih (by simpa using h)]

lemma createRecs_length (recss : List (List Bytes)) :
    createRecs recss.length recss = recss ++ [[]] :=
  if_neg (lt_irrefl _)

lemma Logged.nextSegment (h : Logged P w recs) :
    ∃ w', w.nextSegment = some w' ∧ Logged P w' recs ∧ w'.page.flushed = w'.page.buf.length := by
  obtain ⟨⟨recss, hinv, rfl⟩, hend⟩ := h
  obtain ⟨w', hnext, hinv', hseg, hpage, -⟩ := hinv.nextSegment
  rw [hend, hinv.length_eq, createRecs_length] at hinv'
  refine ⟨w', hnext, ⟨⟨_, hinv', by simp⟩, ?_⟩, by rw [hpage]; rfl⟩
  rw [hseg, hinv'.length_eq, hend, hinv.length_eq, length_append, length_singleton]

variable (hP : P.codec.Lawful)
include hP

variable (h : Logged P w recs)
include h

lemma Logged.log (rec : Bytes) (final : Bool) :
    ∃ w', w.log P rec final = some w' ∧ Logged P w' (recs ++ [rec]) ∧
      (final = true → w'.page.flushed = w'.page.buf.length) := by
  obtain ⟨⟨recss, hinv, rfl⟩, hend⟩ := h
  have hlen := hinv.length_eq
  by_cases hroll : Rolls P w rec
  · obtain ⟨w1, w', -, hseg, -, -, hlog, hinv', ⟨bs, hgrows⟩, hflushed⟩ :=
      hinv.log_roll hP hroll final
    rw [hend, hlen, createRecs_length] at hinv'
    refine ⟨w', hlog, ⟨⟨_, hinv', ?_⟩, ?_⟩, hflushed⟩
    · rw [flatten_modify_last (by simp)]
      simp
    · rw [hgrows.segment, hseg, hinv'.length_eq, hend, hlen, length_modify, length_append,
        length_singleton]
  · obtain ⟨w', hlog, hinv', ⟨bs, hgrows⟩, hflushed⟩ := hinv.log_stay hP hroll final
    refine ⟨w', hlog, ⟨⟨_, hinv', flatten_modify_last (hend.trans hlen) rec⟩, ?_⟩, hflushed⟩
    rw [hgrows.segment, hend, hinv'.length_eq, length_modify, hlen]

lemma Logged.logBatch {batch : List Bytes}
    (hflushed : batch = [] → w.page.flushed = w.page.buf.length) :
    ∃ w', w.logBatch P batch = some w' ∧ Logged P w' (recs ++ batch) ∧
      w'.page.flushed = w'.page.buf.length := by
  induction batch generalizing w recs with
  | nil => exact ⟨w, rfl, by rwa [append_nil], hflushed rfl⟩
  | cons rec batch ih =>
    obtain ⟨w1, hlog, hw1, hfinal⟩ := h.log hP rec (batch.length = 0)
    obtain ⟨w', hbatch, hw', hflushed'⟩ := ih hw1 fun hnil => hfinal (by simp [hnil])
    refine ⟨w', ?_, by rwa [append_assoc] at hw', hflushed'⟩
    rw [WL.logBatch, hlog]
    exact hbatch

lemma Logged.run (hflushed : w.page.flushed = w.page.buf.length) (events : List Event) :
    ∃ w', w.run P events = some w' ∧ Logged P w' (recs ++ logged events) ∧
      w'.page.flushed = w'.page.buf.length := by
  induction events generalizing w recs with
  | nil => exact ⟨w, rfl, by simpa [logged] using h, hflushed⟩
  | cons e events ih =>
    have hstep : ∃ w1, step P w e = some w1 ∧ Logged P w1 (recs ++ logged [e]) ∧
        w1.page.flushed = w1.page.buf.length := by
      cases e with
      | log batch => simpa [logged, step] using h.logBatch hP fun _ => hflushed
      | nextSegment => simpa [logged, step] using h.nextSegment
    obtain ⟨w1, hstep, hw1, hflushed1⟩ := hstep
    obtain ⟨w', hrun, hw', hflushed'⟩ := ih hw1 hflushed1
    refine ⟨w', ?_, ?_, hflushed'⟩
    · rw [WL.run, foldlM_cons, hstep]
      exact hrun
    · rwa [append_assoc, ← show logged (e :: events) = logged [e] ++ logged events by
        simp [logged]] at hw'

omit hP

omit h

/-- A new log over a directory whose segments hold `recss`. -/
lemma logged_newSize
    (h : Forall₂ (Holds P) files recss) {segmentSize : ℤ} {compress : Compression}
    (hw : newSize files segmentSize compress = some w) :
    Logged P w recss.flatten ∧ w.page = ⟨[], 0⟩ ∧ w.files = files ++ [[]] := by
  have hfiles : createSegment files.length files = files ++ [[]] := if_neg (lt_irrefl _)
  unfold newSize at hw
  split_ifs at hw
  cases hw
  have hinv := inv_setSegment (w := ⟨segmentSize, compress, files, 0, 0, ⟨[], 0⟩, false⟩)
    h rfl (le_refl _) (fun i f hi hf => by
      rw [getElem?_eq_none hi] at hf
      cases hf) rfl
  rw [h.length_eq, createRecs_length, ← h.length_eq] at hinv
  refine ⟨⟨⟨_, hinv, by simp⟩, ?_⟩, rfl, hfiles⟩
  show files.length + 1 = (createSegment files.length files).length
  rw [hfiles, length_append, length_singleton]

lemma Logged.close (h : Logged P w recs) :
    ∃ w' recss, w.close = some w' ∧ Forall₂ (Holds P) w'.files recss ∧ recss.flatten = recs := by
  obtain ⟨⟨recss, hinv, rfl⟩, -⟩ := h
  have hclear := hinv.clear
  have hholds := hclear.inv.holds
  rw [hclear.contents_eq] at hholds
  refine ⟨{ (if w.page.buf.length > 0 then w.flushPage true else w) with closed := true }, recss,
    ?_, hholds, rfl⟩
  rw [WL.close, hinv.opened]
  rfl

/-- What is logged is read back from the segments, and no record crosses the end of a segment. -/
theorem log_readSegments {P : Params} (hP : P.codec.Lawful) {segmentSize : ℤ}
    {compress : Compression}
    {w : WL} (hw : newSize [] segmentSize compress = some w) (events : List Event) :
    ∃ w' w'', w.run P events = some w' ∧ w'.close = some w'' ∧
      readSegments P w''.files = (logged events, none) ∧
      ∃ recss, recss.flatten = logged events ∧
        List.Forall₂ (fun seg recs => readSegments P [seg] = (recs, none)) w''.files recss := by
  obtain ⟨hlogged, hpage, -⟩ := logged_newSize .nil hw
  obtain ⟨w', hrun, hlogged', -⟩ := hlogged.run hP (by rw [hpage]; rfl) events
  obtain ⟨w'', recss, hclose, hholds, hrecs⟩ := hlogged'.close
  rw [flatten_nil, nil_append] at hrecs
  refine ⟨w', w'', hrun, hclose, hrecs ▸ readSegments_eq hholds, recss, hrecs, hholds.imp ?_⟩
  intro seg recs hseg
  simpa using readSegments_eq (.cons hseg .nil)

/-- Libraries that do not compress. -/
def storeOnly : Codec := ⟨id, some, id, some⟩

lemma storeOnly_lawful : storeOnly.Lawful := by
  intro t src
  unfold Codec.decode Codec.encode
  split_ifs <;> simp_all [storeOnly]

lemma exists_newSize (files : List Bytes) (compress : Compression) :
    ∃ w, newSize files 32768 compress = some w := by
  refine ⟨_, if_neg ?_⟩
  rw [pageSize_eq]
  decide

/-- Three records, one of them empty, in two segments. -/
theorem log_readSegments_three :
    let P : Params := ⟨fun _ => 0, storeOnly⟩
    ∃ w w' w'', newSize [] 32768 .snappy = some w ∧
      w.run P [.log [[1], []], .nextSegment, .log [[2]]] = some w' ∧ w'.close = some w'' ∧
      readSegments P w''.files = ([[1], [], [2]], none) := by
  intro P
  obtain ⟨w, hw⟩ := exists_newSize [] .snappy
  obtain ⟨w', w'', hrun, hclose, hread, -⟩ := log_readSegments (P := P) storeOnly_lawful hw
    [.log [[1], []], .nextSegment, .log [[2]]]
  exact ⟨w, w', w'', hw, hrun, hclose, hread⟩

end WL

end Prometheus.Wlog
