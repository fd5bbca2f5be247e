import Sirius.Pipeline.OomReschedule
import Sirius.Engine.LimitFinish
import Sirius.Engine.ScanFinish
import Sirius.Expression.Translation
import Sirius.Expression.Substring
import Sirius.Pipeline.Backpressure
import Sirius.Iceberg.Avro
import Sirius.Iceberg.Puffin
import Sirius.Iceberg.Scan
import Sirius.Aggregate.Whole
import Sirius.Sort.SortedOutput
import Sirius.Sort.TopN
import Sirius.Limit.Rows
import Sirius.Creator.Deadlock
import Sirius.Native.Nulls
import Sirius.HostTable.GlobalOffset
import Sirius.Native.SegmentSizes
import Sirius.Cache.LruRuns
import Sirius.Cache.PinnedView
import Sirius.Join.PairEnumeration
import Sirius.Join.ConcatGroups
import Sirius.Parquet.SplitPacking
import Sirius.Aggregate.UngroupedAvg
import Sirius.Join.NullKeys
import Sirius.Pinned.Entries
import Sirius.Splits.Delivery
import Sirius.Partition.Siblings
import Sirius.Native.BitpackingFormat
import Sirius.Native.BitpackingSafety
import Sirius.Native.RleFormat
import Sirius.Native.RleSafety
import Sirius.Io.FanOut
import Sirius.Io.Admission
import Sirius.Io.SigV4
import Sirius.Exec.BoundedPool
