import Prometheus.Lib.BitList

/-!
# The format of the write-ahead log

A segment is a sequence of pages. A record is stored as one fragment, or as several fragments in
consecutive pages, and no fragment crosses the end of a page: what is left of a page is filled with
zeros.

`Layout t a bs outs a'` gives a meaning to the bytes `bs` that follow the first `t` bytes of a
segment. `a` is what has been collected of a record that is not complete yet, `outs` are the records
that get complete, each with the position right after its last fragment, and `a'` is what is
collected at the end. The log writes only what has such a layout, and both readers return its
records.
-/

namespace Prometheus.Wlog

open BitList List Nat

abbrev Bytes := List (BitVec 8)

/-! ### Pages and headers -/

@[irreducible] def pageSize : ℕ := 32 * 1024

lemma pageSize_eq : pageSize = 32768 := by
  unfold pageSize
  rfl

def recordHeaderSize : ℕ := 7

@[simp] lemma recordHeaderSize_eq : recordHeaderSize = 7 := rfl

/-- `recType`. The last constructor stands for the values that have no name. -/
inductive RecType
  | pageTerm
  | full
  | first
  | middle
  | last
  | other (t : ℕ)
deriving DecidableEq

def RecType.byte : RecType → BitVec 8
  | .pageTerm => 0
  | .full => 1
  | .first => 2
  | .middle => 3
  | .last => 4
  | .other t => BitVec.ofNat 8 t

/-- `compression.Type`. -/
inductive Compression
  | none
  | snappy
  | zstd
deriving DecidableEq

/-- `snappyMask` and `zstdMask`. -/
def Compression.mask : Compression → BitVec 8
  | .none => 0
  | .snappy => 1 <<< 3
  | .zstd => 1 <<< 4

/-- `recTypeFromHeader`, with `recTypeMask`. -/
def recTypeFromHeader (header : BitVec 8) : RecType :=
  match (header &&& 7).toNat with
  | 0 => .pageTerm
  | 1 => .full
  | 2 => .first
  | 3 => .middle
  | 4 => .last
  | t => .other t

def compressionFromHeader (header : BitVec 8) : Compression :=
  if header &&& Compression.snappy.mask = Compression.snappy.mask then .snappy
  else if header &&& Compression.zstd.mask = Compression.zstd.mask then .zstd
  else .none

/-- The types of fragments. -/
def RecType.IsFragment : RecType → Prop
  | .full | .first | .middle | .last => True
  | _ => False

/-- The first byte of a fragment. -/
def headerByte (typ : RecType) (compr : Compression) : BitVec 8 := typ.byte ||| compr.mask

lemma recTypeFromHeader_headerByte {typ : RecType} (h : typ.IsFragment) (compr : Compression) :
    recTypeFromHeader (headerByte typ compr) = typ := by
  cases typ <;> first | contradiction | (cases compr <;> decide)

lemma compressionFromHeader_headerByte {typ : RecType} (h : typ.IsFragment) (compr : Compression) :
    compressionFromHeader (headerByte typ compr) = compr := by
  cases typ <;> first | contradiction | (cases compr <;> decide)

/-! ### Compression -/

/-- The compression libraries. -/
structure Codec where
  snappyEncode : Bytes → Bytes
  snappyDecode : Bytes → Option Bytes
  zstdEncode : Bytes → Bytes
  zstdDecode : Bytes → Option Bytes

namespace Codec

variable (codec : Codec)

/-- `compression.Encode`. -/
def encode (t : Compression) (src : Bytes) : Bytes :=
  if src.length = 0 ∨ t = .none then src
  else if t = .snappy then codec.snappyEncode src
  else codec.zstdEncode src

/-- `compression.Decode`. -/
def decode (t : Compression) (src : Bytes) : Option Bytes :=
  if src.length = 0 ∨ t = .none then some src
  else if t = .snappy then codec.snappyDecode src
  else codec.zstdDecode src

/-- Decoding undoes encoding. -/
def Lawful : Prop := ∀ t src, codec.decode t (codec.encode t src) = some src

lemma decode_none (src : Bytes) : codec.decode .none src = some src :=
  if_pos (Or.inr rfl)

end Codec

/-! ### Fragments -/

/-- What the format depends on: the checksum, and the compression libraries. -/
structure Params where
  crc : Bytes → BitVec 32
  codec : Codec

variable (P : Params)

/-- A fragment: type and compression, length, checksum, data. -/
def fragment (typ : RecType) (compr : Compression) (part : Bytes) : Bytes :=
  [headerByte typ compr] ++ ((bytesOf 2 part.length ++ bytesOf 4 (P.crc part).toNat) ++ part)

lemma length_fragment (typ : RecType) (compr : Compression) (part : Bytes) :
    (fragment P typ compr part).length = recordHeaderSize + part.length := by
  simp only [fragment, length_append, length_singleton, length_bytesOf, recordHeaderSize_eq]
  omega

inductive RecordError
  /-- "unexpected full record" -/
  | unexpectedFull
  /-- "unexpected first record, dropping buffer" -/
  | unexpectedFirst
  /-- "unexpected middle record, dropping buffer" -/
  | unexpectedMiddle
  /-- "unexpected last record, dropping buffer" -/
  | unexpectedLast
  /-- "unexpected record type %d" -/
  | unexpectedType (typ : RecType)
deriving DecidableEq

/-- `validateRecord`. -/
def validateRecord (typ : RecType) (i : ℕ) : Option RecordError :=
  match typ with
  | .full => if i ≠ 0 then some .unexpectedFull else none
  | .first => if i ≠ 0 then some .unexpectedFirst else none
  | .middle => if i = 0 then some .unexpectedMiddle else none
  | .last => if i = 0 then some .unexpectedLast else none
  | typ => some (.unexpectedType typ)

lemma isFragment_of_validateRecord {typ : RecType} {i : ℕ} (h : validateRecord typ i = none) :
    typ.IsFragment := by
  cases typ <;> trivial

/-! ### Layouts -/

def zeros (n : ℕ) : Bytes := List.replicate n 0

@[simp] lemma length_zeros (n : ℕ) : (zeros n).length = n := length_replicate

/-- How much is left of the page that has `t` bytes before the current position. -/
def pageRest (t : ℕ) : ℕ := pageSize - t % pageSize

lemma pageRest_pos (t : ℕ) : 0 < pageRest t := by
  have := mod_lt t (show 0 < pageSize by rw [pageSize_eq]; norm_num)
  unfold pageRest
  omega

/-- The fragments of a record that is not complete: how many there are, and their data. -/
structure Pending where
  i : ℕ
  buf : Bytes
deriving DecidableEq

/-- Nothing is pending. -/
def Pending.zero : Pending := ⟨0, []⟩

/-- A fragment of this length does not cross the end of the page. -/
def FitsPage (t length : ℕ) : Prop := t % pageSize + recordHeaderSize + length ≤ pageSize

/-- From offset `t` on, and with a pending record, the bytes hold these records, each with the
offset at its end, and then leave another one pending. -/
inductive Layout : ℕ → Pending → Bytes → List (Bytes × ℕ) → Pending → Prop
  | nil (t : ℕ) (a : Pending) : Layout t a [] [] a
  /-- The rest of a page, or a whole page, is filled with zeros. -/
  | pad {t : ℕ} {a a' : Pending} {bs : Bytes} {outs : List (Bytes × ℕ)} :
      Layout (t + pageRest t) a bs outs a' → Layout t a (zeros (pageRest t) ++ bs) outs a'
  /-- A fragment that does not end a record. -/
  | part {t : ℕ} {a a' : Pending} {typ : RecType} {compr : Compression} {part bs : Bytes}
      {outs : List (Bytes × ℕ)} : typ = .first ∨ typ = .middle → validateRecord typ a.i = none →
      FitsPage t part.length →
      Layout (t + (fragment P typ compr part).length) ⟨a.i + 1, a.buf ++ part⟩ bs outs a' →
      Layout t a (fragment P typ compr part ++ bs) outs a'
  /-- A fragment that ends a record. -/
  | record {t : ℕ} {a a' : Pending} {typ : RecType} {compr : Compression} {part rec bs : Bytes}
      {outs : List (Bytes × ℕ)} : typ = .last ∨ typ = .full → validateRecord typ a.i = none →
      FitsPage t part.length → P.codec.decode compr (a.buf ++ part) = some rec →
      Layout (t + (fragment P typ compr part).length) .zero bs outs a' →
      Layout t a (fragment P typ compr part ++ bs)
        ((rec, t + (fragment P typ compr part).length) :: outs) a'

namespace Layout

variable {P} {t : ℕ} {a a' a'' : Pending} {bs bs' : Bytes} {outs outs' : List (Bytes × ℕ)}

lemma append (h : Layout P t a bs outs a') (h' : Layout P (t + bs.length) a' bs' outs' a'') :
    Layout P t a (bs ++ bs') (outs ++ outs') a'' := by
  induction h with
  | nil t a => simpa using h'
  | pad _ ih =>
    rw [append_assoc]
    refine .pad (ih ?_)
    rwa [length_append, length_zeros, ← add_assoc] at h'
  | part htyp hval hfits _ ih =>
    rw [append_assoc]
    refine .part htyp hval hfits (ih ?_)
    rwa [length_append, ← add_assoc] at h'
  | record htyp hval hfits hdec _ ih =>
    rw [append_assoc, cons_append]
    refine .record htyp hval hfits hdec (ih ?_)
    rwa [length_append, ← add_assoc] at h'

/-- The zeros at the end of a page. -/
lemma zeros_pageRest (t : ℕ) (a : Pending) : Layout P t a (zeros (pageRest t)) [] a := by
  rw [← append_nil (zeros _)]
  exact .pad (.nil _ _)

/-- Every record ends after the start and not after the end. -/
lemma bounds (h : Layout P t a bs outs a') : ∀ o ∈ outs, t < o.2 ∧ o.2 ≤ t + bs.length := by
  induction h with
  | nil => simp
  | pad _ ih =>
    intro o ho
    have := ih o ho
    rw [length_append, length_zeros]
    omega
  | part _ _ _ _ ih =>
    intro o ho
    have := ih o ho
    rw [length_append]
    omega
  | @record t a a' typ compr part rec bs outs _ _ _ _ _ ih =>
    intro o ho
    have hpos : 0 < (fragment P typ compr part).length := by
      rw [length_fragment, recordHeaderSize_eq]
      omega
    rw [length_append]
    obtain rfl | ho := mem_cons.1 ho
    · exact ⟨Nat.lt_add_of_pos_right hpos, Nat.add_le_add_left (Nat.le_add_right _ _) t⟩
    · have := ih o ho
      omega

/-- A layout can be moved by whole pages. -/
lemma shift (h : Layout P t a bs outs a') (t' : ℕ) (ht : t' % pageSize = t % pageSize) :
    ∃ outs', Layout P t' a bs outs' a' ∧ outs'.map Prod.fst = outs.map Prod.fst := by
  induction h generalizing t' with
  | nil t a => exact ⟨[], .nil t' a, rfl⟩
  | @pad t a a' bs outs _ ih =>
    have hrest : pageRest t' = pageRest t := by rw [pageRest, pageRest, ht]
    obtain ⟨outs', hl, hmap⟩ := ih (t' + pageRest t) (by rw [add_mod, ht, ← add_mod])
    rw [← hrest] at hl ⊢
    exact ⟨outs', .pad hl, hmap⟩
  | @part t a a' typ compr part bs outs htyp hval hfits _ ih =>
    obtain ⟨outs', hl, hmap⟩ := ih (t' + (fragment P typ compr part).length)
      (by rw [add_mod, ht, ← add_mod])
    exact ⟨outs', .part htyp hval (by rwa [FitsPage, ht]) hl, hmap⟩
  | @record t a a' typ compr part rec bs outs htyp hval hfits hdec _ ih =>
    obtain ⟨outs', hl, hmap⟩ := ih (t' + (fragment P typ compr part).length)
      (by rw [add_mod, ht, ← add_mod])
    exact ⟨_ :: outs', .record htyp hval (by rwa [FitsPage, ht]) hdec hl, by simp [hmap]⟩

end Layout

end Prometheus.Wlog
