import Scal.AtomicLayouts
import Scal.BagProof
import Scal.BfsAnalyzer
import Scal.Bitmap
import Scal.BoundedSizeKFifoBag
import Scal.BoundedSizeKFifoSequential
import Scal.DTSQueueFifo
import Scal.DistributedQueueBackends
import Scal.FlatCombiningQueueFifo
import Scal.HumanSize
import Scal.IntervalTimestamp
import Scal.KStackBag
import Scal.KStackSequential
import Scal.LockBasedQueueProgress
import Scal.LockBasedQueueTimeout
import Scal.MSQueueLockFree
import Scal.MSQueueSize
import Scal.MallocZeroing
import Scal.MtxFile
import Scal.ProdCon
import Scal.Pseudorand
import Scal.RandomDequeueQueueSequential
import Scal.ShortestPathBacktrace
import Scal.SpinningBarrier
import Scal.StutteringTimestamp
import Scal.TSDequeBag
import Scal.TSDequeSequential
import Scal.TSQueueBag
import Scal.TSQueueFifo
import Scal.TSStackBag
import Scal.TSStackLifo
import Scal.TreiberStackLockFree
import Scal.TreiberStackRefinement
import Scal.UnboundedSizeKFifoBag
import Scal.UnboundedSizeKFifoSequential
import Scal.UnboundedSizeKFifoSlots
import Scal.WaitfreeQueueExactlyOnce
import Scal.WaitfreeQueueHelping
import Scal.WfQueuePpopp12ExactlyOnce
