import Polar.Ringbuf.Delivery
import Polar.Ringbuf.Keep
import Polar.XlogQueue.RoundTrip
import Polar.Replica.Contiguity
import Polar.Logindex.PageIteration
import Polar.Pipeline.Wakeups
import Polar.Pipeline.Notify
import Polar.Pipeline.SingleWriter
import Polar.Pipeline.FlushSafety
import Polar.Pipeline.Contiguity
import Polar.Csn.Retention
import Polar.FlushList.Safety
import Polar.Replay.Background
import Polar.LockReplay.Gate
import Polar.LockReplay.Books
import Polar.ParallelReplay.Frontier
import Polar.SizeCache.Linear
import Polar.SizeCache.Lag
import Polar.FullPage.Restore
import Polar.FullPage.Files
import Polar.SplitRead.Equivalence
import Polar.SyncDdl.Locked
import Polar.DdlReplay.Waits
import Polar.DataMax.Retention
import Polar.DirectIo.Plain
import Polar.DropBuffers.Equal
import Polar.SplitSession.HintBits
import Polar.FlushList.Cursor
