import Sqkio.Lib.Machine
import Sqkio.Lib.Counter
import Sqkio.Lib.Tile
import Sqkio.Lib.Fifo
import Sqkio.Lib.Partition
import Sqkio.Lib.Dll
import Sqkio.Lib.Bits
import Sqkio.Lib.BlockStore
import Sqkio.Lib.Progress
import Sqkio.Lib.Linear
import Sqkio.Ring.Copy
import Sqkio.Ring.Model
import Sqkio.Ring.Step
import Sqkio.Ring.Inv
import Sqkio.Ring.Counters
import Sqkio.Ring.Values
import Sqkio.Ring.Delivery
import Sqkio.Ring.Seq
import Sqkio.Ring.Geometry
import Sqkio.Ring.Bounds
import Sqkio.Ring.Queue
import Sqkio.Ring.Elements
import Sqkio.Ring.Modes
import Sqkio.Ring.Capacity
import Sqkio.Ring.Convert
import Sqkio.Ring.Progress
import Sqkio.Ring.Linear
import Sqkio.Core.Scheduler
import Sqkio.Core.Awaker
import Sqkio.Core.Pending
import Sqkio.Core.Bypass
import Sqkio.Core.Checkable
import Sqkio.Core.WakeRace
import Sqkio.Core.Submit
import Sqkio.Core.Coroutine
import Sqkio.Core.Calls
import Sqkio.Core.Waits
import Sqkio.Core.Step
import Sqkio.Core.Inv
import Sqkio.Core.Wakes
import Sqkio.Core.Promises
import Sqkio.Core.References
import Sqkio.Core.Reads
import Sqkio.Core.Program
import Sqkio.Core.Outcome
import Sqkio.Core.Adequacy
import Sqkio.Core.Correct
import Sqkio.Slab.Model
import Sqkio.Slab.Ownership
import Sqkio.Slab.Size
import Sqkio.Slab.Peak
import Sqkio.Tlsf.Pool
import Sqkio.Tlsf.Mapping
import Sqkio.Tlsf.Model
import Sqkio.Tlsf.Layout
import Sqkio.Tlsf.FreeLists
import Sqkio.Tlsf.Heap
import Sqkio.Tlsf.Hole
import Sqkio.Tlsf.Malloc
import Sqkio.Tlsf.Free
import Sqkio.Tlsf.Realloc
import Sqkio.Tlsf.Init
import Sqkio.Tlsf.Walk
import Sqkio.Tlsf.Bytes
import Sqkio.Tlsf.Client
import Sqkio.Tlsf.Runs
import Sqkio.Tlsf.Reach
import Sqkio.Net.EventQueue
import Sqkio.Net.Transfer
import Sqkio.Net.Registry
import Sqkio.Net.Listener
import Sqkio.Net.Errors
import Sqkio.Net.Failure
import Sqkio.Net.Info
import Sqkio.Net.Lifecycle
import Sqkio.Net.Accept
import Sqkio.Net.Send
import Sqkio.Net.Submission
import Sqkio.Io.Blob
