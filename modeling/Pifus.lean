import Pifus.HeapShape
import Pifus.RecvRuns
import Pifus.StackRuns
import Pifus.SqueueChange
import Pifus.CallbackThread
import Pifus.Discovery
import Pifus.CompletionQueue
import Pifus.RingBufferAccess
import Pifus.SocketWait
import Pifus.AppNumbers
import Pifus.SocketTables
import Pifus.TcpOperations
import Pifus.RecvRegistration
import Pifus.WriteRuns
import Pifus.PrioRuns
import Pifus.PcbStates
import Pifus.RateLimit
import Pifus.AcceptedSockets
import Pifus.RecvCompletions
import Pifus.ByteBufferRuns
import Pifus.AllocateSizes
import Pifus.HeapCalls
import Pifus.HeapCapacity
import Pifus.HeaderAccess
import Pifus.Acknowledgements
import Pifus.LoopIteration
import Pifus.WriteAtFront
import Pifus.RejectedRecv
import Pifus.WaitArray
import Pifus.Submit
import Pifus.RingLookup
import Pifus.PriorityQueue
import Pifus.HeapContents
import Pifus.RecvCopies
import Pifus.DataPath
import Pifus.BlockOwners
import Pifus.DataRuns
import Pifus.SentBytes
import Pifus.Delivered
import Pifus.ResultRoom
import Pifus.Pipeline
import Pifus.Precedence
import Pifus.EventLoop
import Pifus.RegionNames
import Pifus.DiscoveryLoop
import Pifus.EqualBlocks
import Pifus.Progress
import Pifus.Answers
