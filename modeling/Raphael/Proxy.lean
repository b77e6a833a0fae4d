/-
  The hook proxies (HookProxy.h).

  A proxy is a program over the operations it performs: the test of the mode,
  the limit and the guard at its head, the update of its thread's guard, the
  call of the original, the capture of a backtrace and the accesses to the
  table.  The semantics (one thread, nested calls, interleaved threads) all
  run these same programs.

  * `malloc_proxy` and its siblings are translated one by one.
  * `Call.tracked` and `Call.tail`: the entry test of a proxy, and what a
    tracked call does after its original returned; `proxy_eq` is the common
    shape of the eight proxies that return.
-/
import Raphael.Defs
import Raphael.Lib.Prog

namespace Raphael

/-- A call of a hooked function, or of the original behind it. -/
inductive Call
  | malloc (size : Word)
  | calloc (count bytes : Word)
  | realloc (ptr size : Word)
  | memalign (alignment size : Word)
  | free (address : Word)
  | mmap (ptr size : Word) (port flags fd : BitVec 32) (offset : Word)
  | mmap64 (ptr size : Word) (port flags fd : BitVec 32) (offset : Word)
  | munmap (address size : Word)
  | pthreadExit (value : Word)
  deriving DecidableEq

/-- The operations of the proxies. -/
inductive HookOp
  /-- read `isPss`, `isVss`, `limit` and the thread's guard -/
  | test
  /-- `pthread_setspecific(guard, v)` -/
  | setGuard (v : Bool)
  /-- read `limit` -/
  | readLimit
  /-- call the original -/
  | origin (c : Call)
  /-- `unwind_backtrace(backtrace.trace, depth + 1)` -/
  | unwind
  /-- `pthread_getattr_np(pthread_self(), &attr)`: `attr.stack_base` -/
  | stackBase
  /-- `cache->insert(address, size, &backtrace)` -/
  | insert (address size : Word) (backtrace : Backtrace)
  /-- `cache->remove(address)` -/
  | remove (address : Word)

/-- The answers of the operations. -/
abbrev HookOp.Res : HookOp → Type
  | test => Configs × Bool
  | setGuard _ => Unit
  | readLimit => BitVec 32
  | origin _ => Word
  | unwind => Backtrace
  | stackBase => Option Word
  | insert .. => Unit
  | remove _ => Unit

/-- Programs of the proxies. -/
abbrev Hook (α : Type) := Prog HookOp HookOp.Res α

namespace Hook

def test : Hook (Configs × Bool) := .op HookOp.test .ret
def setGuard (v : Bool) : Hook Unit := .op (HookOp.setGuard v) .ret
def readLimit : Hook (BitVec 32) := .op HookOp.readLimit .ret
def origin (c : Call) : Hook Word := .op (HookOp.origin c) .ret
def unwind : Hook Backtrace := .op HookOp.unwind .ret
def stackBase : Hook (Option Word) := .op HookOp.stackBase .ret
def insert (address size : Word) (bt : Backtrace) : Hook Unit :=
  .op (HookOp.insert address size bt) .ret
def remove (address : Word) : Hook Unit := .op (HookOp.remove address) .ret

end Hook

/-- `MAP_FAILED` -/
def mapFailed : Word := BitVec.allOnes 64

/-! ## The proxies -/

def insertMemoryBacktrace (address size : Word) : Hook Unit := do
  let backtrace ← Hook.unwind
  Hook.insert address size backtrace

/-- The common body of `malloc_proxy`, `calloc_proxy` and `memalign_proxy`: the
    original call `c`, and the byte count `size` that is tested and stored. -/
def allocProxy (c : Call) (size : Word) : Hook Word := do
  let (g, guard) ← Hook.test
  if g.isPss ∧ g.limit.setWidth 64 ≤ size ∧ ¬ guard then
    Hook.setGuard true
    let address ← Hook.origin c
    if address ≠ 0 then
      insertMemoryBacktrace address size
    Hook.setGuard false
    return address
  else
    Hook.origin c

def mallocProxy (size : Word) : Hook Word := allocProxy (.malloc size) size

/-- The byte count goes through the local `uint size`. -/
def callocProxy (count bytes : Word) : Hook Word :=
  let size : BitVec 32 := (count * bytes).setWidth 32
  allocProxy (.calloc count bytes) (size.setWidth 64)

def memalignProxy (alignment size : Word) : Hook Word := allocProxy (.memalign alignment size) size

def reallocProxy (ptr size : Word) : Hook Word := do
  let (g, guard) ← Hook.test
  if g.isPss ∧ ¬ guard then
    Hook.setGuard true
    let address ← Hook.origin (.realloc ptr size)
    if ptr ≠ 0 ∧ (size = 0 ∨ address ≠ 0) then
      Hook.remove ptr
    let limit ← Hook.readLimit
    if address ≠ 0 ∧ limit.setWidth 64 ≤ size then
      insertMemoryBacktrace address size
    Hook.setGuard false
    return address
  else
    Hook.origin (.realloc ptr size)

def freeProxy (address : Word) : Hook Word := do
  let (g, guard) ← Hook.test
  if (g.isVss ∨ g.isPss) ∧ address ≠ 0 ∧ ¬ guard then
    Hook.setGuard true
    let result ← Hook.origin (.free address)
    Hook.remove address
    Hook.setGuard false
    return result
  else
    Hook.origin (.free address)

/-- The common body of `mmap_proxy` and `mmap64_proxy`. -/
def mapProxy (c : Call) (size : Word) : Hook Word := do
  let (g, guard) ← Hook.test
  if g.isVss ∧ ¬ guard then
    Hook.setGuard true
    let address ← Hook.origin c
    if address ≠ mapFailed then
      insertMemoryBacktrace address size
    Hook.setGuard false
    return address
  else
    Hook.origin c

def mmapProxy (ptr size : Word) (port flags fd : BitVec 32) (offset : Word) : Hook Word :=
  mapProxy (.mmap ptr size port flags fd offset) size

def mmap64Proxy (ptr size : Word) (port flags fd : BitVec 32) (offset : Word) : Hook Word :=
  mapProxy (.mmap64 ptr size port flags fd offset) size

def munmapProxy (address size : Word) : Hook Word := do
  let (g, guard) ← Hook.test
  if g.isVss ∧ address ≠ 0 ∧ ¬ guard then
    Hook.setGuard true
    let result ← Hook.origin (.munmap address size)
    if result = 0 then
      Hook.remove address
    Hook.setGuard false
    return result
  else
    Hook.origin (.munmap address size)

/-- The only proxy that does not test the guard. -/
def pthreadExitProxy (value : Word) : Hook Word := do
  let (g, _) ← Hook.test
  if g.isVss then
    if let some base ← Hook.stackBase then
      Hook.setGuard true
      Hook.remove base
      Hook.setGuard false
  Hook.origin (.pthreadExit value)

/-- The proxy of a hooked call. -/
def proxy : Call → Hook Word
  | .malloc size => mallocProxy size
  | .calloc count bytes => callocProxy count bytes
  | .realloc ptr size => reallocProxy ptr size
  | .memalign alignment size => memalignProxy alignment size
  | .free address => freeProxy address
  | .mmap ptr size port flags fd offset => mmapProxy ptr size port flags fd offset
  | .mmap64 ptr size port flags fd offset => mmap64Proxy ptr size port flags fd offset
  | .munmap address size => munmapProxy address size
  | .pthreadExit value => pthreadExitProxy value

/-! ## The common shape -/

namespace Call

/-- The byte count a proxy tests against the limit and stores. -/
def size : Call → Word
  | malloc size => size
  | calloc count bytes => ((count * bytes).setWidth 32).setWidth 64
  | realloc _ size => size
  | memalign _ size => size
  | mmap _ size _ _ _ _ => size
  | mmap64 _ size _ _ _ _ => size
  | free _ | munmap .. | pthreadExit _ => 0

/-- The entry test of the proxy: the call is tracked. -/
def tracked (g : Configs) (guard : Bool) : Call → Bool
  | malloc size | memalign _ size => g.isPss && g.limit.setWidth 64 ≤ size && !guard
  | calloc count bytes =>
    g.isPss && g.limit.setWidth 64 ≤ ((count * bytes).setWidth 32).setWidth 64 && !guard
  | realloc .. => g.isPss && !guard
  | free address => (g.isVss || g.isPss) && address ≠ 0 && !guard
  | mmap .. | mmap64 .. => g.isVss && !guard
  | munmap address _ => g.isVss && address ≠ 0 && !guard
  | pthreadExit _ => false

/-- The call may have released memory at this address when it returned `r`: the
    address whose record is removed. -/
def drops (r : Word) : Call → Option Word
  | realloc ptr size => if ptr ≠ 0 ∧ (size = 0 ∨ r ≠ 0) then some ptr else none
  | free address => some address
  | munmap address _ => if r = 0 then some address else none
  | _ => none

/-- The call that returned `r` is recorded. -/
def records (limit : BitVec 32) (r : Word) : Call → Bool
  | malloc _ | calloc .. | memalign .. => r ≠ 0
  | realloc _ size => r ≠ 0 ∧ limit.setWidth 64 ≤ size
  | mmap .. | mmap64 .. => r ≠ mapFailed
  | free _ | munmap .. | pthreadExit _ => false

/-- What a tracked call does after its original returned `r`. -/
def tail (c : Call) (r : Word) : Hook Unit :=
  match c with
  | malloc _ | calloc .. | memalign .. =>
    if r ≠ 0 then insertMemoryBacktrace r c.size else pure ()
  | realloc ptr size => do
    if ptr ≠ 0 ∧ (size = 0 ∨ r ≠ 0) then
      Hook.remove ptr
    let limit ← Hook.readLimit
    if r ≠ 0 ∧ limit.setWidth 64 ≤ size then
      insertMemoryBacktrace r size
  | mmap .. | mmap64 .. => if r ≠ mapFailed then insertMemoryBacktrace r c.size else pure ()
  | free address => Hook.remove address
  | munmap address _ => if r = 0 then Hook.remove address else pure ()
  | pthreadExit _ => pure ()

/-- The body of a tracked call. -/
def guarded (c : Call) : Hook Word := do
  Hook.setGuard true
  let r ← Hook.origin c
  c.tail r
  Hook.setGuard false
  return r

end Call

/-- **The shape of the proxies** that return: the entry test decides between
    the guarded body and the bare original. -/
theorem proxy_eq {c : Call} (hc : ∀ v, c ≠ .pthreadExit v) :
    proxy c = .op HookOp.test fun t => if c.tracked t.1 t.2 then c.guarded else Hook.origin c := by
  cases c with
  | pthreadExit v => exact absurd rfl (hc v)
  | _ =>
    simp only [proxy, mallocProxy, callocProxy, memalignProxy, allocProxy, reallocProxy, freeProxy,
      mmapProxy, mmap64Proxy, mapProxy, munmapProxy, Call.tracked, Call.guarded, Call.tail,
      Call.size, Hook.test, Hook.remove, Hook.readLimit, Prog.op_bind, Prog.ret_bind,
      Prog.ite_bind, Prog.pure_eq, Bool.and_eq_true, Bool.or_eq_true, decide_eq_true_eq,
      Bool.not_eq_true', and_assoc, Bool.not_eq_true]

/-! ## The actions after the original -/

/-- An access to the table. -/
inductive Act
  | insert (address size : Word) (backtrace : Backtrace)
  | remove (address : Word)

/-- The accesses to the table that a program has still to make after the
    original returned, for the limit `limit` and the backtrace `bt`. -/
def pending {α : Type} (limit : BitVec 32) (bt : Backtrace) : Hook α → List Act
  | .ret _ => []
  | .op (.setGuard _) k => pending limit bt (k ())
  | .op .readLimit k => pending limit bt (k limit)
  | .op .unwind k => pending limit bt (k bt)
  | .op (.insert address size b) k => .insert address size b :: pending limit bt (k ())
  | .op (.remove address) k => .remove address :: pending limit bt (k ())
  | .op .test _ | .op (.origin _) _ | .op .stackBase _ => []

/-- The accesses of the tracked call `c` whose original returned `r`. -/
def Call.acts (limit : BitVec 32) (bt : Backtrace) (c : Call) (r : Word) : List Act :=
  ((c.drops r).map Act.remove).toList ++
    bif c.records limit r then [.insert r c.size bt] else []

/-- What is left of a tracked call after its original. -/
def Call.rest (c : Call) (r : Word) : Hook Word := do
  c.tail r
  Hook.setGuard false
  return r

theorem Call.guarded_eq (c : Call) :
    c.guarded = .op (HookOp.setGuard true) fun _ => .op (HookOp.origin c) c.rest := rfl

theorem pending_ite {α : Type} (limit : BitVec 32) (bt : Backtrace) (p : Prop) [Decidable p]
    (x y : Hook α) : pending limit bt (if p then x else y) =
      if p then pending limit bt x else pending limit bt y := by
  split <;> rfl

/-- The operations that a tracked call performs between its original and the
    reset of its guard. -/
def plain : HookOp → Prop
  | .readLimit | .unwind | .insert .. | .remove _ => True
  | .test | .setGuard _ | .origin _ | .stackBase => False

theorem Call.tail_plain (c : Call) (r : Word) : (c.tail r).Each plain := by
  cases c <;>
    simp [Call.tail, insertMemoryBacktrace, Hook.unwind, Hook.insert, Hook.remove, Hook.readLimit,
      Prog.each_ite, Prog.Each, plain]

theorem pending_bind {α : Type} (limit : BitVec 32) (bt : Backtrace) (q : Hook α)
    {p : Hook Unit} (h : p.Each plain) :
    pending limit bt (p >>= fun _ => q) = pending limit bt p ++ pending limit bt q := by
  induction p with
  | ret a => rfl
  | op o k ih =>
    have ih := fun a => ih a (h.2 a)
    cases o with
    | readLimit | unwind => exact ih _
    | insert | remove => exact congrArg (_ :: ·) (ih ())
    | test | setGuard | origin | stackBase => exact h.1.elim

theorem pending_tail (limit : BitVec 32) (bt : Backtrace) (c : Call) (r : Word) :
    pending limit bt (c.tail r) = c.acts limit bt r := by
  cases c <;>
    simp only [Call.tail, Call.acts, Call.drops, Call.records, Call.size,
      insertMemoryBacktrace, Hook.unwind, Hook.insert, Hook.remove, Hook.readLimit,
      Prog.op_bind, Prog.ret_bind, Prog.pure_eq, pending_ite, pending,
      Bool.cond_decide, cond_false, apply_ite (Option.map Act.remove), apply_ite Option.toList,
      Option.map_some, Option.map_none, Option.toList_some, Option.toList_none,
      List.nil_append, List.append_nil]
  case realloc ptr size => split <;> rfl

/-- **After its original a tracked call makes the accesses `acts`.** -/
theorem pending_rest (limit : BitVec 32) (bt : Backtrace) (c : Call) (r : Word) :
    pending limit bt (c.rest r) = c.acts limit bt r := by
  rw [Call.rest, pending_bind limit bt _ (c.tail_plain r), pending_tail]
  exact List.append_nil _

end Raphael
