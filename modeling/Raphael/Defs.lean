/-
  The data of the recorder (Cache.h, Raphael.h): machine words, the
  configuration word, backtraces and table nodes, for the 64-bit target.

  The two fixed arrays `uintptr_t trace[MAX_TRACE_DEPTH]` are only accessed
  through `Trace.get?`, `Trace.set?` and `Trace.copy`, which fail on an index
  outside the array: a program that fails has undefined behaviour.
-/
import Mathlib.Data.List.OfFn
import Mathlib.Data.BitVec
import Mathlib.Tactic.Common

namespace Raphael

/-- `uintptr_t` and `size_t`. -/
abbrev Word := BitVec 64

/-- `MAX_TRACE_DEPTH` -/
abbrev maxTraceDepth : ℕ := 16

/-- `ADDR_HASH_OFFSET` (not `__arm__`) -/
abbrev addrHashOffset : ℕ := 6

/-- `ALLOC_INDEX_SIZE` -/
abbrev allocIndexSize : ℕ := 1 <<< 16

/-- `ALLOC_CACHE_SIZE` -/
abbrev allocCacheSize : ℕ := 1 <<< 15

/-! ## Configuration -/

def map64Mode : BitVec 32 := 0x00800000
def allocMode : BitVec 32 := 0x00400000
def depthMask : BitVec 32 := 0x001F0000
def limitMask : BitVec 32 := 0x0000FFFF

/-- The globals `limit`, `depth`, `isPss` and `isVss`. -/
structure Configs where
  limit : BitVec 32
  depth : BitVec 32
  isPss : Bool
  isVss : Bool
  deriving DecidableEq

/-- What `update_configs` makes of the configuration word `params`. -/
def Configs.ofParams (params : BitVec 32) : Configs where
  limit := params &&& limitMask
  depth := (params &&& depthMask) >>> 16
  isPss := params &&& allocMode ≠ 0
  isVss := params &&& map64Mode ≠ 0

/-- Both modes on, limit 1024. -/
def Configs.both : Configs := ⟨1024, 16, true, true⟩

/-! ## Traces -/

/-- `uintptr_t trace[MAX_TRACE_DEPTH]` -/
abbrev Trace := Fin maxTraceDepth → Word

namespace Trace

/-- Read `t[i]`. -/
def get? (t : Trace) (i : ℕ) : Option Word :=
  if h : i < maxTraceDepth then some (t ⟨i, h⟩) else none

/-- Write `t[i] = v`. -/
def set? (t : Trace) (i : ℕ) (v : Word) : Option Trace :=
  if h : i < maxTraceDepth then some (Function.update t ⟨i, h⟩ v) else none

/-- `memcpy(dst, src + off, n * sizeof(uintptr_t))` -/
def copy (dst src : Trace) (off : ℕ) : ℕ → Option Trace
  | 0 => some dst
  | n + 1 => do
    let d ← copy dst src off n
    let v ← src.get? (off + n)
    d.set? n v

/-- The loop `for (int i = 0; slots[i] != 0; i++)`: the entries it sees, or
    nothing if it runs past the last slot. -/
def scan : List Word → Option (List Word)
  | [] => none
  | v :: slots => if v = 0 then some [] else (scan slots).map (v :: ·)

/-- The entries of a trace up to its terminating zero. -/
def frames (t : Trace) : Option (List Word) := scan (List.ofFn t)

end Trace

/-- `Backtrace`: `depth` frames of the calling thread in `trace`. -/
structure Backtrace where
  depth : BitVec 32
  trace : Trace

/-- What `MemoryCache::insert` puts into a node's trace: the frames from the
    third on (the first two are the recorder's own) and a terminating zero. -/
def Backtrace.store (backtrace : Backtrace) (trace : Trace) : Option Trace :=
  let depth := (if 2 < backtrace.depth then backtrace.depth - 2 else 1).toNat
  (trace.copy backtrace.trace 2 depth).bind fun t => t.set? depth 0

/-! ## Nodes -/

/-- `AllocNode *`: the number of the node in the pool's array. -/
abbrev Ptr := ℕ

structure AllocNode where
  size : BitVec 32
  addr : Word
  trace : Trace
  next : Option Ptr

/-- What a node of the table says about an allocation. -/
structure Record where
  addr : Word
  size : BitVec 32
  frames : List Word
  deriving DecidableEq

def AllocNode.record (p : AllocNode) : Record := ⟨p.addr, p.size, p.trace.frames.getD []⟩

end Raphael
