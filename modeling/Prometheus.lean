import Prometheus.Chunkenc.Xor
import Prometheus.Histogram.Add
import Prometheus.Histogram.SmallOffsets
import Prometheus.Promql.Preprocess
import Prometheus.Promql.HistogramStats
import Prometheus.Promql.ResultMetric
import Prometheus.Rules.Alerting
import Prometheus.Rules.Staleness
import Prometheus.Storage.MergeQuerier
import Prometheus.Tsdb.ChunkIDs
import Prometheus.Tsdb.ExemplarFifo
import Prometheus.Tsdb.HeadRead
import Prometheus.Tsdb.OOOBlocks
import Prometheus.Tsdb.Orphans
import Prometheus.Tsdb.Plan
import Prometheus.Tsdb.PostingsForMatchers
import Prometheus.Tsdb.QuerierTruncation
import Prometheus.Tsdb.Reload
import Prometheus.Tsdb.Replay
import Prometheus.Tsdb.SeriesRecords
import Prometheus.Wlog.Checkpoint
import Prometheus.Wlog.LiveReader
