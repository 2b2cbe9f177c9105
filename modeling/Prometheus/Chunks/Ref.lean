import Mathlib

/-!
# Refs of head chunks

`ChunkDiskMapperRef` of `tsdb/chunks/head_chunks.go`: the number of a file, and an offset in it. The
numbers of files are not bounded here.
-/

namespace Prometheus.Chunks

/-- `newChunkDiskMapperRef`. -/
def newChunkDiskMapperRef (seq offset : ℕ) : ℕ :=
  seq * 2 ^ 32 + offset

/-- `ChunkDiskMapperRef.Unpack`: the number of the file and the offset in it. -/
def unpackRef (ref : ℕ) : ℕ × ℕ :=
  (ref / 2 ^ 32, ref % 2 ^ 32)

/-- `ChunkDiskMapperRef.GreaterThan`. -/
def greaterThan (ref r : ℕ) : Bool :=
  (unpackRef ref).1 > (unpackRef r).1 ||
    (unpackRef ref).1 = (unpackRef r).1 && (unpackRef ref).2 > (unpackRef r).2

@[simp] lemma greaterThan_iff {ref r : ℕ} : greaterThan ref r ↔ r < ref := by
  rw [greaterThan, Bool.or_eq_true, Bool.and_eq_true, decide_eq_true_eq, decide_eq_true_eq,
    decide_eq_true_eq]
  dsimp only [unpackRef]
  omega

end Prometheus.Chunks
