import Prometheus.Lib.GoInt

/-!
# Blocks

The metadata of a block (`BlockMeta` in `tsdb/block.go`), as far as planning a compaction and
reloading the blocks look at it.
-/

namespace Prometheus.Tsdb

/-- A `ulid.ULID` is an array of 16 bytes. -/
def ULID := BitVec 128
deriving DecidableEq

structure BlockStats where
  numSeries : BitVec 64
  numTombstones : BitVec 64
deriving DecidableEq

/-- `BlockMeta`, with the fields of its `BlockMetaCompaction`. Of the parents there is only the
ULID. -/
structure BlockMeta where
  ulid : ULID
  minTime : ℤ
  maxTime : ℤ
  stats : BlockStats
  deletable : Bool
  failed : Bool
  parents : List ULID
deriving DecidableEq

end Prometheus.Tsdb
