import Raphael.Lib.Chain
import Raphael.Lib.Lts
import Raphael.Lib.Prog
import Raphael.Trace
import Raphael.Cache
import Raphael.CacheInv
import Raphael.Report
import Raphael.Store
import Raphael.Proxy
import Raphael.Client
import Raphael.Threads
import Raphael.PoolSteps
import Raphael.Lifecycle
import Raphael.Exec
import Raphael.InlineHook
import Raphael.Heap
import Raphael.Nested
import Raphael.Lib.Regex
import Raphael.Sizes
import Raphael.Unwind
import Raphael.Parse
import Raphael.Merge
import Raphael.Analysis
import Raphael.Frames
import Raphael.Reentry
import Raphael.Mappings
import Raphael.Loader
import Raphael.Focus
import Raphael.Sessions
import Raphael.Concurrent
import Raphael.Linearize
import Raphael.Brackets
import Raphael.Opened
import Raphael.Stacks
import Raphael.Lib.A64
import Raphael.Relocate
import Raphael.Trampoline
import Raphael.Simulate
import Raphael.Hook64
import Raphael.Exidx
import Raphael.Ehabi
import Raphael.Prologue
import Raphael.Backtrace32
import Raphael.Lib.Sleb128
import Raphael.PackedReloc
import Raphael.SymHash
import Raphael.Sheet
