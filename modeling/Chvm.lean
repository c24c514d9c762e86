import Chvm.Lib.Run
import Chvm.Lib.Via
import Chvm.Lib.Wire
import Chvm.Lib.RwLock
import Chvm.Lib.Slots
import Chvm.Lib.Chain
import Chvm.Lib.DList
import Chvm.Lib.Bytes
import Chvm.Lib.Cells
import Chvm.Lib.Tiles
import Chvm.Lib.Triple
import Chvm.Lib.Threads
import Chvm.Lib.Rounds
import Chvm.Lib.Walk
import Chvm.Lib.Linear
import Chvm.Core.Mem
import Chvm.Core.Children
import Chvm.Core.Heap
import Chvm.Testing.Chunit
import Chvm.Testing.Modules
import Chvm.Testing.Assert
import Chvm.Util.Broken
import Chvm.Util.Tables
import Chvm.Util.Deque
import Chvm.Util.Chain
import Chvm.Util.Buffers
import Chvm.Virt.Vaddr
import Chvm.Virt.Table
import Chvm.Virt.Exclusive
import Chvm.Virt.Book
import Chvm.Virt.Coherent
import Chvm.Virt.FreeList
import Chvm.Virt.View
import Chvm.Virt.Map
import Chvm.Virt.Sections
import Chvm.Virt.Linear
import Chvm.Virt.Progress
import Chvm.Virt.Foreach
import Chvm.Mb.Block
import Chvm.Mb.Links
import Chvm.Mb.Layout
import Chvm.Mb.Coalesce
import Chvm.Mb.Malloc
import Chvm.Mb.Shift
import Chvm.Mb.System
import Chvm.Mb.Memory
import Chvm.Ms.Space
import Chvm.Ms.Buffers
import Chvm.Ms.System
import Chvm.Ms.Parts
import Chvm.Ms.Calls
import Chvm.Ms.Malloc
import Chvm.Ms.Owner
import Chvm.Cs.Space
import Chvm.Cs.Buffers
import Chvm.Cs.Machine
import Chvm.Cs.Moves
import Chvm.Cs.Effects
import Chvm.Cs.Marking
import Chvm.Cs.Refs
import Chvm.Cs.Search
import Chvm.Cs.Snapshot
import Chvm.Cs.Safety
import Chvm.Cs.Garbage
import Chvm.Cs.Complete
import Chvm.Cs.Exact
import Chvm.Cs.Sequential
import Chvm.Cs.Roots
import Chvm.Cs.Worker
import Chvm.Cs.Accounts
import Chvm.Cs.Object
import Chvm.Cs.Layout
import Chvm.Cs.Locking
import Chvm.Cs.LockOrder
import Chvm.Cs.LockCalls
import Chvm.Cs.Deadlock
import Chvm.Mb.Compact
import Chvm.Mb.Order
import Chvm.Mb.Array
import Chvm.Ms.Filter
import Chvm.Ms.Store
import Chvm.Ms.Sections
import Chvm.Ms.Linear
import Chvm.Core.Io
import Chvm.Core.Lock
import Chvm.Util.LinkedList
import Chvm.Util.ArrayList
import Chvm.Cs.Raw
import Chvm.Cs.Loads
import Chvm.Cs.Sections
import Chvm.Cs.Refines
import Chvm.Cs.Progress
