/-
  The report on the device: `write_trace` and `MemoryCache::print`
  (MemoryCache.cpp, with the STACK_FORMAT_* of MemoryCache.h for __LP64__).

  What the dynamic linker and the C++ runtime say about an address is a
  parameter (`Symbols`).  The cache that `xdl_addr` keeps between calls is
  left out, and so is a report file that does not open: nothing is written
  then.
-/
import Raphael.CacheInv

namespace Raphael

/-- `Dl_info` as `xdl_addr` fills it, a `nullptr` string being `none`. -/
structure DlInfo where
  dliFbase : Word
  dliFname : Option (List Char)
  dliSaddr : Word
  dliSname : Option (List Char)

structure Symbols where
  /-- `xdl_addr`, `none` for the result 0 -/
  xdlAddr : Word → Option DlInfo
  /-- `__cxa_demangle` -/
  demangle : List Char → Option (List Char)

/-! ## printf -/

/-- `%016lx` -/
def hex16 (w : Word) : List Char :=
  List.ofFn fun i : Fin 16 => (w.toNat / 16 ^ (15 - i.1) % 16).digitChar

/-- `%u` and `%lu` -/
def dec {n : ℕ} (w : BitVec n) : List Char := Nat.toDigits 10 w.toNat

/-- `0x%016lx` -/
def addrText (w : Word) : List Char := "0x".toList ++ hex16 w

/-! ## write_trace -/

/-- The line shapes of a frame. -/
inductive Line
  /-- `STACK_FORMAT_UNKNOWN` -/
  | unknown (pc : Word)
  /-- `STACK_FORMAT_ANONYMOUS` -/
  | anonymous (pc base : Word)
  /-- `STACK_FORMAT_FILE` -/
  | file (pc : Word) (path : List Char)
  /-- `STACK_FORMAT_FILE_NAME` -/
  | fileName (pc : Word) (path symbol : List Char)
  /-- `STACK_FORMAT_FILE_NAME_LINE` -/
  | fileNameLine (pc : Word) (path symbol : List Char) (offset : Word)

namespace Line

/-- The printed program counter: absolute, or relative to the file. -/
def pc : Line → Word
  | unknown pc | anonymous pc _ | file pc _ | fileName pc _ _ | fileNameLine pc _ _ _ => pc

/-- The line without its line feed. -/
def body : Line → List Char
  | unknown pc => addrText pc ++ " <unknown>".toList
  | anonymous pc base => addrText pc ++ " <anonymous:".toList ++ hex16 base ++ ">".toList
  | file pc path => addrText pc ++ " ".toList ++ path ++ " (unknown)".toList
  | fileName pc path symbol =>
    addrText pc ++ " ".toList ++ path ++ " (".toList ++ symbol ++ " + ?)".toList
  | fileNameLine pc path symbol offset =>
    addrText pc ++ " ".toList ++ path ++ " (".toList ++ symbol ++ " + ".toList ++ dec offset ++
      ")".toList

def text (l : Line) : List Char := l.body ++ ['\n']

end Line

/-- The line `write_trace` prints for the frame `pc`. -/
def lineOf (env : Symbols) (pc : Word) : Line :=
  match env.xdlAddr pc with
  | none => .unknown pc
  | some info =>
    if info.dliFbase > pc then .unknown pc
    else
      match info.dliFname with
      | none | some [] => .anonymous (pc - info.dliFbase) info.dliFbase
      | some fname =>
        match info.dliSname with
        | none | some [] => .file (pc - info.dliFbase) fname
        | some sname =>
          let symbol := (env.demangle sname).getD sname
          if info.dliSaddr = 0 ∨ info.dliSaddr > pc then
            .fileName (pc - info.dliFbase) fname symbol
          else .fileNameLine (pc - info.dliFbase) fname symbol (pc - info.dliSaddr)

/-- The header line, without its line feeds. -/
def headerBody (addr : Word) (size : BitVec 32) : List Char :=
  addrText addr ++ ", ".toList ++ dec size ++ ", 1".toList

/-- `STACK_FORMAT_HEADER` -/
def headerText (addr : Word) (size : BitVec 32) : List Char :=
  ['\n'] ++ headerBody addr size ++ ['\n']

/-- The text of one record whose frames are printed as `lines`. -/
def blockText (addr : Word) (size : BitVec 32) (lines : List Line) : List Char :=
  headerText addr size ++ lines.flatMap Line.text

/-- `write_trace`; fails if the trace has no terminating zero. -/
def writeTrace (env : Symbols) (node : AllocNode) : Option (List Char) :=
  node.trace.frames.map fun pcs => blockText node.addr node.size (pcs.map (lineOf env))

/-! ## print -/

/-- The buckets in the order of `for (auto p : alloc_table)`. -/
def allBuckets : List (BitVec 16) := (List.range allocIndexSize).map (BitVec.ofNat 16)

/-- `MemoryCache::print`: the text of the report; fails if a chain does not end
    or a trace has no terminating zero. -/
def MemoryCache.print (c : MemoryCache) (env : Symbols) : Option (List Char) :=
  (allBuckets.mapM fun h => do
    let ps ← Linked.walk c.allocCache.next allocCacheSize (c.allocTable h)
    let texts ← ps.mapM fun p => writeTrace env (c.allocCache.mCache p)
    return texts.flatten).map List.flatten

/-- The block a record is printed as. -/
def Record.block (env : Symbols) (r : Record) : List Char :=
  blockText r.addr r.size (r.frames.map (lineOf env))

theorem mapM_some {α β : Type} {f : α → Option β} {g : α → β} {l : List α}
    (h : ∀ x ∈ l, f x = some (g x)) : l.mapM f = some (l.map g) := by
  induction l with
  | nil => rfl
  | cons x l ih =>
    rw [List.mapM_cons, h x List.mem_cons_self, ih fun y hy => h y (List.mem_cons_of_mem x hy)]
    rfl

/-- **print writes one block per record**, bucket by bucket. -/
theorem Layout.print_eq {c : MemoryCache} {live free : List Ptr} (L : Layout c live free)
    (env : Symbols) :
    c.print env = some ((allBuckets.flatMap c.bucket).flatMap (Record.block env)) := by
  have hnode : ∀ p ∈ live, writeTrace env (c.allocCache.mCache p) =
      some ((c.recordAt p).block env) := fun p hp => by
    obtain ⟨pcs, e⟩ := Option.isSome_iff_exists.1 (L.ended p hp)
    simp [writeTrace, Record.block, MemoryCache.recordAt, AllocNode.record, e]
  have hbucket : ∀ h ∈ allBuckets, (do
      let ps ← Linked.walk c.allocCache.next allocCacheSize (c.allocTable h)
      let texts ← ps.mapM fun p => writeTrace env (c.allocCache.mCache p)
      return texts.flatten) = some ((c.bucket h).flatMap (Record.block env)) := fun h _ => by
    rw [(L.chain h).walk ((List.length_filter_le ..).trans L.length_le)]
    simp only [Option.bind_eq_bind, Option.bind_some,
      mapM_some (fun p hp => hnode p (List.mem_filter.1 hp).1), Option.pure_def]
    rw [L.bucket_eq, List.filter_map, List.flatMap_map]
    rfl
  rw [MemoryCache.print, mapM_some hbucket, Option.map_some, List.flatMap_assoc]
  rfl

end Raphael
