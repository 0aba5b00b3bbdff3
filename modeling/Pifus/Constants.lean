import Mathlib.Algebra.Group.Nat.Defs

/-!
# Constants

The sizes and limits of `pifus_constants.h` that the model uses, with the
sizes of the two structures laid out inside the app region: a `pifus_app` is
one 32-bit word, and a `pifus_memory_block` is a `bool`, a `size_t` and an
`int64_t`, each at a multiple of eight bytes.
-/

/-- `SHM_APP_SIZE`: the bytes of an app's region. -/
def shmAppSize : ℕ := 1000000

/-- `sizeof(struct pifus_app)`. -/
abbrev sizeofPifusApp : ℕ := 4

/-- `sizeof(struct pifus_memory_block)`. -/
abbrev sizeofPifusMemoryBlock : ℕ := 24

/-- `SQUEUE_SIZE`. -/
def squeueSize : ℕ := 10

/-- `CQUEUE_SIZE`. -/
def cqueueSize : ℕ := 65535

/-- `WRITE_QUEUE_SIZE`. -/
def writeQueueSize : ℕ := 32

/-- `RECV_QUEUE_SIZE`. -/
def recvQueueSize : ℕ := 32

/-- `RECV_BUFFER_SIZE`. -/
def recvBufferSize : ℕ := 32000

/-- `MAX_DEQUEUES_PER_ITERATION`. -/
def maxDequeuesPerIteration : ℕ := 50

/-- `MAX_FULL_SND_BUF_ITERATIONS`. -/
def maxFullSndBufIterations : ℕ := 64

/-- `TX_QUEUE_SIZE`. -/
def txQueueSize : ℕ := 512

/-- `TX_MAX_FUTEXES_PER_THREAD`. -/
def txMaxFutexesPerThread : ℕ := 128

/-- `TX_MAX_PARALLEL_OPS_PER_SOCKET`. -/
def txMaxParallelOpsPerSocket : ℕ := 10

/-- `MAX_APP_AMOUNT`. -/
def maxAppAmount : ℕ := 100

/-- `MAX_SOCKETS_PER_APP`. -/
def maxSocketsPerApp : ℕ := 127

/-- `DISCOVERY_MAX_NEW_SOCKETS`. -/
def discoveryMaxNewSockets : ℕ := 10

/-! ## Queue lengths

Each is one that `create` takes, whose indices are `uint16_t`. -/

theorem squeueSize_pos : 0 < squeueSize := by decide

theorem squeueSize_lt : squeueSize < 2 ^ 16 := by decide

theorem cqueueSize_pos : 0 < cqueueSize := by decide

theorem cqueueSize_lt : cqueueSize < 2 ^ 16 := by decide

theorem txQueueSize_pos : 0 < txQueueSize := by decide

theorem txQueueSize_lt : txQueueSize < 2 ^ 16 := by decide

theorem writeQueueSize_pos : 0 < writeQueueSize := by decide

theorem writeQueueSize_lt : writeQueueSize < 2 ^ 16 := by decide

theorem discoveryMaxNewSockets_pos : 0 < discoveryMaxNewSockets := by decide

theorem discoveryMaxNewSockets_lt : discoveryMaxNewSockets < 2 ^ 16 := by decide
