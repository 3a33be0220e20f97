import Ltop.Library.Loop
import Ltop.Library.Chain
import Ltop.Library.Heap
import Ltop.Library.Preorder
import Ltop.Library.Saturate
import Ltop.Library.Transfer
import Ltop.Library.Rounding
import Ltop.Library.Apportion
import Ltop.Library.Align
import Ltop.Library.Memory
import Ltop.Library.Outcome
import Ltop.Library.Bpf
import Ltop.Library.Numeral
import Ltop.Library.Forest
import Ltop.Word
import Ltop.Bytes
import Ltop.Vec
import Ltop.Nest
import Ltop.Sort
import Ltop.Map
import Ltop.Proc
import Ltop.Coalesce
import Ltop.Settle
import Ltop.Filter
import Ltop.Traverse
import Ltop.Tree
import Ltop.Layout
import Ltop.Drawn
import Ltop.Clock
import Ltop.Budget
import Ltop.Names
import Ltop.Collect
import Ltop.Noise
import Ltop.FastPath
import Ltop.Arena
import Ltop.Layers
import Ltop.Steps
import Ltop.Contract
import Ltop.OsBinary
import Ltop.OsFormat
import Ltop.OsWalk
import Ltop.OsLookup
import Ltop.OsSafety
import Ltop.OsTree
import Ltop.OsDecode
import Ltop.Capacity
import Ltop.Ticks
import Ltop.ProcArgs
import Ltop.Rotation
import Ltop.LabelProtocol
import Ltop.LabelInert
import Ltop.EmitRow
import Ltop.Sandbox
import Ltop.MacLayouts
import Ltop.Delta
import Ltop.Cells
import Ltop.Truncate
import Ltop.StatLine
import Ltop.RowWidth
import Ltop.Frozen
import Ltop.SortWords
import Ltop.SlotVec
import Ltop.NestArena
import Ltop.Cmdline
import Ltop.Dirents
import Ltop.Uncommit
import Ltop.NvidiaAccounts
import Ltop.MacConsistent
import Ltop.StackPeak
import Ltop.AgxTicks
import Ltop.Checkpoints
import Ltop.ArenaReplay
import Ltop.ArenaTidy
import Ltop.Monitor
import Ltop.MonitorOrder
import Ltop.MonitorRuns
import Ltop.Screen
import Ltop.ArenaDrawn
import Ltop.ArenaLog
import Ltop.InlineBytes
import Ltop.InlinePrint
import Ltop.Startup
import Ltop.StartupStack
import Ltop.Session
import Ltop.Reclaim
import Ltop.StackSizes
