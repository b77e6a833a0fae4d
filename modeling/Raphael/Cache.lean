/-
  The record table (AllocPool.hpp, MemoryCache.cpp), run by one thread.

  The nodes live in the array of the pool.  Their `next` field threads both
  the chains of the table and the free stack of the pool.
-/
import Raphael.Trace
import Raphael.Lib.Chain

namespace Raphael

open Linked

/-! ## AllocPool -/

structure AllocPool where
  mCache : Ptr → AllocNode
  mCount : ℕ
  mIndex : BitVec 32
  mStack : Option Ptr

namespace AllocPool

/-- The `next` fields of the nodes. -/
def next (pool : AllocPool) : Ptr → Option Ptr := fun p => (pool.mCache p).next

def reset (pool : AllocPool) : AllocPool := { pool with mIndex := 0, mStack := none }

/-- `apply`: pop the free stack, else issue a new node. -/
def apply (pool : AllocPool) : AllocPool × Option Ptr :=
  match pool.mStack with
  | some p => ({ pool with mStack := pool.next p }, some p)
  | none =>
    if pool.mIndex.toNat < pool.mCount then
      ({ pool with mIndex := pool.mIndex + 1 }, some pool.mIndex.toNat)
    else (pool, none)

/-- `recycle`: push `p` on the free stack. -/
def recycle (pool : AllocPool) (p : Ptr) : AllocPool :=
  { pool with
    mCache := Function.update pool.mCache p { pool.mCache p with next := pool.mStack }
    mStack := some p }

end AllocPool

/-! ## MemoryCache -/

/-- `uint16_t alloc_hash = (address >> ADDR_HASH_OFFSET) & 0xFFFF` -/
def allocHash (address : Word) : BitVec 16 :=
  ((address >>> addrHashOffset) &&& 0xFFFF).setWidth 16

/-- `remove_alloc`: unlink the first node of the chain `header` with the
    address `address`.  Returns the nodes, the header and the unlinked node;
    fails if the search does not end. -/
def removeAlloc (mem : Ptr → AllocNode) (header : Option Ptr) (address : Word) :
    Option ((Ptr → AllocNode) × Option Ptr × Option Ptr) :=
  match header with
  | none => some (mem, none, none)
  | some hptr =>
    if (mem hptr).addr = address then some (mem, (mem hptr).next, some hptr)
    else do
      let p ← seek (fun q => (mem q).next) (fun q => (mem q).addr = address) allocCacheSize hptr
      match (mem p).next with
      | none => some (mem, some hptr, none)
      | some t =>
        some (Function.update mem p { mem p with next := (mem t).next }, some hptr, some t)

structure MemoryCache where
  allocTable : BitVec 16 → Option Ptr
  allocCache : AllocPool

namespace MemoryCache

/-- The table after the constructor: the pool has `ALLOC_CACHE_SIZE` nodes,
    and everything else is what the memory happened to hold. -/
def new (allocTable : BitVec 16 → Option Ptr) (mCache : Ptr → AllocNode) (mIndex : BitVec 32)
    (mStack : Option Ptr) : MemoryCache :=
  ⟨allocTable, ⟨mCache, allocCacheSize, mIndex, mStack⟩⟩

/-- A new table in cleared memory. -/
def blank : MemoryCache := new (fun _ => none) (fun _ => ⟨0, 0, fun _ => 0, none⟩) 0 none

def reset (c : MemoryCache) : MemoryCache :=
  { allocCache := c.allocCache.reset, allocTable := fun _ => none }

/-- The pool has no node left ("Alloc cache is full"). -/
def full (c : MemoryCache) : Bool := c.allocCache.apply.2.isNone

/-- `insert`; fails if it leaves an array. -/
def insert (c : MemoryCache) (address size : Word) (backtrace : Backtrace) : Option MemoryCache :=
  match c.allocCache.apply with
  | (_, none) => some c
  | (pool, some p) => do
    let trace ← backtrace.store (pool.mCache p).trace
    let h := allocHash address
    let node : AllocNode := ⟨size.setWidth 32, address, trace, c.allocTable h⟩
    some { allocTable := Function.update c.allocTable h (some p)
           allocCache := { pool with mCache := Function.update pool.mCache p node } }

/-- `remove`; fails if the search does not end. -/
def remove (c : MemoryCache) (address : Word) : Option MemoryCache :=
  let h := allocHash address
  if c.allocTable h = none then some c
  else do
    let (mem, header, p) ← removeAlloc c.allocCache.mCache (c.allocTable h) address
    let pool := { c.allocCache with mCache := mem }
    some { allocTable := Function.update c.allocTable h header
           allocCache := match p with
             | none => pool
             | some p => pool.recycle p }

/-- The nodes of the bucket `h`, as far as `ALLOC_CACHE_SIZE` rounds of the
    chain loop see them. -/
def chain (c : MemoryCache) (h : BitVec 16) : List Ptr :=
  (walk c.allocCache.next allocCacheSize (c.allocTable h)).getD []

/-- The records of the bucket `h`, in chain order. -/
def bucket (c : MemoryCache) (h : BitVec 16) : List Record :=
  (c.chain h).map fun p => (c.allocCache.mCache p).record

/-- The records the table holds for an address, the most recent one first. -/
def held (c : MemoryCache) (address : Word) : List Record :=
  (c.bucket (allocHash address)).filter (·.addr = address)

end MemoryCache

end Raphael
