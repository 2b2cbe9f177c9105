import Mathlib

/-!
# Reading from a source in pieces

A source is what Go calls an `io.Reader`: asked for `n` bytes it returns some of them, or reports
that it has reached its end. `readFull` is `io.ReadFull`, which asks again until it has all of them.

`Streams src R` says that, as long as `R s bs` holds, what the source in state `s` still returns is
`bs`, however it cuts it into pieces. A list is the simplest source (`ofList`), and `readFull_sim`
says that reading a source that streams `bs` is reading `bs`. `BufReader` is a `bufio.Reader` over a
file.
-/

namespace Source

/-- The two errors of `io.ReadFull`: nothing, or too little, could be read. -/
inductive Error
  | eof
  | unexpectedEOF
deriving DecidableEq

end Source

/-- `read n s` returns what was read, whether the end was reported, and the state that is left.
`left s` bounds how often a source can be read before it reports the end. -/
structure Source (σ α : Type*) where
  read : ℕ → σ → List α × Bool × σ
  left : σ → ℕ

namespace Source

open List

variable {σ α : Type*}

/-- The loop of `io.ReadFull`, where `n` elements are missing and `acc` has been read. -/
def readFullLoop (src : Source σ α) : ℕ → ℕ → List α → σ → Except Error (List α) × σ
  | 0, _, _, s => (.error .unexpectedEOF, s)
  | fuel + 1, n, acc, s =>
    if n = 0 then (.ok acc, s)
    else
      let (b, eof, s') := src.read n s
      if n ≤ b.length then (.ok (acc ++ b), s')
      else if eof then (.error (if acc ++ b = [] then .eof else .unexpectedEOF), s')
      else readFullLoop src fuel (n - b.length) (acc ++ b) s'

/-- `io.ReadFull`. -/
def readFull (src : Source σ α) (n : ℕ) (s : σ) : Except Error (List α) × σ :=
  readFullLoop src (src.left s + 1) n [] s

/-- A list as a source that returns as much as it is asked for. -/
def ofList : Source (List α) α where
  read n bs := (bs.take n, bs.isEmpty, bs.drop n)
  left := List.length

/-- What `readFull` does if the rest of the source is `bs`. -/
def takeFull (n : ℕ) (bs : List α) : Except Error (List α) × List α :=
  if n ≤ bs.length then (.ok (bs.take n), bs.drop n)
  else (.error (if bs = [] then .eof else .unexpectedEOF), [])

/-- A read returns no more than it is asked for, and what it returns is not left. So only finitely
many reads return something. -/
structure Finite (src : Source σ α) : Prop where
  length_le : ∀ n s, (src.read n s).1.length ≤ n
  left_le : ∀ n s, (src.read n s).1.length + src.left (src.read n s).2.2 ≤ src.left s

/-- Read after read, the source gives the list to which `R` relates it, and then ends. -/
structure Streams (src : Source σ α) (R : σ → List α → Prop) : Prop where
  read {s : σ} {bs b : List α} {n : ℕ} {eof : Bool} {s' : σ} : R s bs → 0 < n →
    src.read n s = (b, eof, s') → ∃ bs', bs = b ++ bs' ∧ b.length ≤ n ∧ R s' bs' ∧
      (eof = true → bs' = []) ∧ (eof = false → src.left s' < src.left s)
  length_le {s : σ} {bs : List α} : R s bs → bs.length ≤ src.left s

variable {src : Source σ α} {R : σ → List α → Prop} {bs : List α}

lemma takeFull_append {n : ℕ} (h : bs.length = n) (rest : List α) :
    takeFull n (bs ++ rest) = (.ok bs, rest) := by
  subst h
  rw [takeFull, if_pos (by simp), take_left, drop_left]

variable (hsrc : src.Streams R)
include hsrc

lemma readFullLoop_eq {fuel n : ℕ} {s : σ} (hR : R s bs)
    (hfuel : src.left s < fuel) (acc : List α) :
    ∃ s', R s' (takeFull n bs).2 ∧ src.readFullLoop fuel n acc s =
      (if n ≤ bs.length then .ok (acc ++ bs.take n)
        else .error (if acc ++ bs = [] then .eof else .unexpectedEOF), s') := by
  induction fuel generalizing n acc bs s with
  | zero => omega
  | succ fuel ih =>
    by_cases hn0 : n = 0
    · subst hn0
      exact ⟨s, by simpa [takeFull] using hR, by simp [readFullLoop]⟩
    obtain ⟨b, eof, s', hread⟩ : ∃ b eof s', src.read n s = (b, eof, s') := ⟨_, _, _, rfl⟩
    obtain ⟨bs', rfl, hb, hR', heof, hleft⟩ := hsrc.read hR (by omega) hread
    simp only [readFullLoop, if_neg hn0, hread]
    by_cases hfull : n ≤ b.length
    · obtain rfl : n = b.length := by omega
      exact ⟨s', by simpa [takeFull] using hR', by simp⟩
    cases eof with
    | true =>
      obtain rfl := heof rfl
      exact ⟨s', by simpa [takeFull, hfull] using hR', by simp [hfull]⟩
    | false =>
      obtain ⟨s'', hR'', heq⟩ := ih (n := n - b.length) hR' (by have := hleft rfl; omega) (acc ++ b)
      have hle : n - b.length ≤ bs'.length ↔ n ≤ (b ++ bs').length := by
        rw [length_append]
        omega
      refine ⟨s'', ?_, ?_⟩
      · unfold takeFull at hR'' ⊢
        simp only [hle] at hR''
        rw [drop_append, drop_eq_nil_of_le hb, nil_append]
        split_ifs at hR'' ⊢ <;> exact hR''
      · rw [if_neg hfull, if_neg Bool.false_ne_true, heq]
        simp only [hle, append_assoc, take_append, take_of_length_le hb]

/-- Reading a source that streams `bs` is reading `bs`. -/
theorem readFull_sim (n : ℕ) {s : σ} (hR : R s bs) :
    (src.readFull n s).1 = (takeFull n bs).1 ∧ R (src.readFull n s).2 (takeFull n bs).2 := by
  obtain ⟨s', hR', heq⟩ := readFullLoop_eq hsrc hR (Nat.lt_succ_self _) []
  rw [readFull, heq]
  refine ⟨?_, hR'⟩
  simp only [takeFull, nil_append]
  split_ifs <;> rfl

omit hsrc

lemma ofList_streams : (ofList (α := α)).Streams Eq where
  read := by
    rintro bs _ b n eof s' rfl hn h
    cases h
    refine ⟨bs.drop n, (take_append_drop n bs).symm, length_take_le n bs, rfl, ?_, ?_⟩
    · intro hnil
      rw [isEmpty_iff.1 hnil, drop_nil]
    intro hne
    have hpos : 0 < bs.length := length_pos_iff.2 (isEmpty_eq_false_iff.1 hne)
    show (bs.drop n).length < bs.length
    rw [length_drop]
    omega
  length_le := by
    rintro bs _ rfl
    exact Nat.le_refl _

@[simp] lemma readFull_ofList (n : ℕ) (bs : List α) : ofList.readFull n bs = takeFull n bs :=
  have h := readFull_sim ofList_streams n (Eq.refl bs)
  Prod.ext h.1 h.2

/-! ### Buffered reading of a file -/

/-- `bufio.Reader`: the size of its buffer, what is in the buffer, and the rest of the file. -/
structure BufReader (α : Type*) where
  size : ℕ
  buf : List α
  file : List α

/-- `bufio.NewReaderSize`. -/
def newReaderSize (file : List α) (size : ℕ) : BufReader α := ⟨size, [], file⟩

/-- `bufio.Reader.Read`. If the buffer is empty, it is filled by one read of the file, or passed by
if it is not larger than what is asked for. -/
def BufReader.read (n : ℕ) (b : BufReader α) : List α × Bool × BufReader α :=
  if b.buf.isEmpty then
    if b.size ≤ n then (b.file.take n, b.file.isEmpty, { b with file := b.file.drop n })
    else if b.file.isEmpty then ([], true, b)
    else
      ((b.file.take b.size).take n, false,
        { b with buf := (b.file.take b.size).drop n, file := b.file.drop b.size })
  else (b.buf.take n, false, { b with buf := b.buf.drop n })

/-- What is left to read. -/
def BufReader.rest (b : BufReader α) : List α := b.buf ++ b.file

lemma BufReader.read_spec {b b' : BufReader α} {n : ℕ} {out : List α} {eof : Bool}
    (hsize : 0 < b.size)
    (hn : 0 < n) (h : b.read n = (out, eof, b')) :
    b.rest = out ++ b'.rest ∧ out.length ≤ n ∧ b'.size = b.size ∧
      (eof = true → out = [] ∧ b'.rest = []) ∧ (eof = false → out ≠ []) := by
  have hlen (l : List α) : (l.take n).length ≤ n := length_take_le n l
  have hne {l : List α} (hl : ¬ l.isEmpty = true) {m : ℕ} (hm : 0 < m) : l.take m ≠ [] := by
    rw [ne_eq, take_eq_nil_iff]
    rintro (rfl | rfl)
    · exact absurd hm (Nat.lt_irrefl 0)
    · exact hl rfl
  unfold BufReader.read at h
  split_ifs at h with hbuf hbig hfile <;> cases h
  · have hnil := isEmpty_iff.1 hbuf
    refine ⟨by simp [rest, hnil], hlen _, rfl, ?_, ?_⟩
    · intro hfile
      simp [rest, hnil, isEmpty_iff.1 hfile]
    · intro hfile
      exact hne (by simp [hfile]) hn
  · exact ⟨rfl, Nat.zero_le n, rfl, fun _ => ⟨rfl, by
      simp [rest, isEmpty_iff.1 hbuf, isEmpty_iff.1 hfile]⟩, fun h => by simp at h⟩
  · refine ⟨?_, hlen _, rfl, fun h => by simp at h, fun _ => ?_⟩
    · rw [rest, rest, isEmpty_iff.1 hbuf, ← append_assoc, take_append_drop,
        take_append_drop, nil_append]
    · refine hne ?_ hn
      rw [List.isEmpty_iff]
      exact hne hfile hsize
  · refine ⟨?_, hlen _, rfl, fun h => by simp at h, fun _ => hne hbuf hn⟩
    rw [rest, rest, ← append_assoc, take_append_drop]

end Source
