import Parquet4Seastar.BitUtil.Bits
import Parquet4Seastar.BitUtil.Machine
import Parquet4Seastar.BitUtil.Writer.Basic
import Parquet4Seastar.BitUtil.Writer.Spec
import Parquet4Seastar.BitUtil.Writer.Format
import Parquet4Seastar.BitUtil.Writer.Stream
import Parquet4Seastar.BitUtil.Writer.Reachable
import Parquet4Seastar.BitUtil.Writer.Frame
import Parquet4Seastar.BitUtil.Reader.Basic
import Parquet4Seastar.BitUtil.Reader.Spec
import Parquet4Seastar.BitUtil.Reader.Vlq
import Parquet4Seastar.BitUtil.Reader.Batch
import Parquet4Seastar.BitUtil.Reader.Stream
import Parquet4Seastar.BitUtil.Reader.Reachable
import Parquet4Seastar.BitUtil.RoundTrip
