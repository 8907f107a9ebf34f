import Aesd.Semantics.BoundedQueue
import Aesd.Semantics.CommandLog
import Aesd.Semantics.Delimited
import Aesd.Semantics.Execution
import Aesd.Semantics.Linked
import Aesd.Semantics.Memory
import Aesd.Semantics.Ring
import Aesd.Semantics.Segments
import Aesd.Semantics.Word
import Aesd.Driver.BoundedQueue
import Aesd.Driver.Counter
import Aesd.Driver.Lifecycle
import Aesd.Driver.Stream
import Aesd.Driver.Linearization
import Aesd.Driver.LockFreeReads
import Aesd.Driver.Ownership
import Aesd.Driver.Leaks
import Aesd.Driver.Positions
import Aesd.Driver.SeekEnd
import Aesd.Server.Connections
import Aesd.Server.Descriptors
import Aesd.Server.PacketBounds
import Aesd.Server.Progress
import Aesd.Server.SeekAnswers
import Aesd.Server.SeekCommand
import Aesd.Server.Serial
