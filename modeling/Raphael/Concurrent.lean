/-
  The record table under any number of threads (MemoryCache.cpp).

  `insert` takes and fills its node before it locks `alloc_mutex`, `remove`
  looks at the head of the bucket before it does and recycles after, `print`
  walks all chains under the lock.  Each call is run step by step, a step being
  one access to what the calls share; `apply` and `recycle` of the pool are one
  step each.  The walk of `remove_alloc` is one step, too: all it reads is
  protected by the lock.

  A call takes effect when `apply` gives it nothing, when it finds the bucket
  empty, when it links or unlinks a node, or when it has printed the last one.

  * `next`: what the operations do to the store of the records.
  * `insert_alone`, `remove_alone`, `print_alone`: a call that nobody disturbs
    does what the table's functions do in one piece.
-/
import Raphael.Store
import Raphael.Lib.Linear

namespace Raphael

namespace Concurrent

open Linked Linear

/-! ## The store, call by call -/

inductive Op
  | insert (r : Record)
  | remove (a : Word)
  | print
  deriving DecidableEq

/-- What a call came to: `insert` and `remove` tell nobody. -/
inductive Out
  | done
  /-- there was no node for the record -/
  | dropped
  /-- there was no record to remove -/
  | absent
  /-- the text of the report -/
  | text (t : List Char)
  deriving DecidableEq

/-- The store after an operation with an outcome, if it can have that outcome. -/
def next (env : Symbols) (s : Store) : Op → Out → Option Store
  | .insert r, .done => if s.length < allocCacheSize then some (r :: s) else none
  | .insert _, .dropped => some s
  | .remove a, .done => if s.any (·.addr = a) then some (s.remove a) else none
  | .remove a, .absent => if s.any (·.addr = a) then none else some s
  | .print, .text t => if t = s.report env then some s else none
  | _, _ => none

/-! ## Calls -/

/-- The arguments of `insert`. -/
structure Insertion where
  address : Word
  size : Word
  backtrace : Backtrace

/-- The backtrace fits the arrays. -/
def Insertion.Fits (x : Insertion) : Prop := x.backtrace.depth.toNat ≤ maxTraceDepth

def Insertion.record (x : Insertion) : Record :=
  ⟨x.address, x.size.setWidth 32, x.backtrace.stored⟩

/-- What a call does next. -/
inductive Pc
  /-- `AllocNode *p = alloc_cache->apply()` -/
  | apply (x : Insertion)
  /-- `p->addr = address` -/
  | setAddr (x : Insertion) (p : Ptr)
  /-- `p->size = size` -/
  | setSize (x : Insertion) (p : Ptr)
  /-- `memcpy(p->trace, ..); p->trace[depth] = 0` -/
  | setTrace (x : Insertion) (p : Ptr)
  /-- `pthread_mutex_lock(&alloc_mutex)` of `insert` -/
  | lockInsert (x : Insertion) (p : Ptr)
  /-- `p->next = alloc_table[alloc_hash]` -/
  | setNext (x : Insertion) (p : Ptr)
  /-- `alloc_table[alloc_hash] = p` -/
  | link (x : Insertion) (p : Ptr)
  /-- `if (alloc_table[alloc_hash] == nullptr) return` -/
  | test (a : Word)
  /-- `pthread_mutex_lock(&alloc_mutex)` of `remove` -/
  | lockRemove (a : Word)
  /-- `remove_alloc(&alloc_table[alloc_hash], address)` -/
  | unlink (a : Word)
  /-- `pthread_mutex_unlock(&alloc_mutex)` of `remove`, with a node in hand -/
  | unlockRemove (p : Ptr)
  /-- `alloc_cache->recycle(p)` -/
  | recycle (p : Ptr)
  /-- `pthread_mutex_lock(&alloc_mutex)` of `print` -/
  | lockPrint
  /-- the loops of `print`: the buckets and the node still to come, and what is
      written -/
  | scan (buckets : List (BitVec 16)) (p : Option Ptr) (out : List Char)
  /-- `pthread_mutex_unlock(&alloc_mutex)`, with nothing in hand -/
  | unlock (out : Out)
  /-- the return -/
  | done (out : Out)

namespace Pc

/-- The node that the call has in hand. -/
def node : Pc → Option Ptr
  | setAddr _ p | setSize _ p | setTrace _ p | lockInsert _ p | setNext _ p | link _ p
  | unlockRemove p | recycle p => some p
  | _ => none

/-- The call holds the lock. -/
def locked : Pc → Bool
  | setNext .. | link .. | unlink _ | unlockRemove _ | scan .. | unlock _ => true
  | _ => false

/-- The call waits for the lock. -/
def waits : Pc → Bool
  | lockInsert .. | lockRemove _ | lockPrint => true
  | _ => false

/-- The trace that the call stores next fits. -/
def Fits : Pc → Prop
  | setTrace x _ => x.Fits
  | _ => True

/-- The operation still to take effect, or the outcome. -/
def phase : Pc → Op ⊕ Out
  | apply x | setAddr x _ | setSize x _ | setTrace x _ | lockInsert x _ | setNext x _
  | link x _ => .inl (.insert x.record)
  | test a | lockRemove a | unlink a => .inl (.remove a)
  | lockPrint | scan .. => .inl .print
  | unlockRemove _ | recycle _ => .inr .done
  | unlock out | done out => .inr out

/-- What the call returned. -/
def returned : Pc → Option Out
  | done out => some out
  | _ => none

end Pc

/-- The shared state and the call after a step, and the effect of the step. -/
structure Progress where
  cache : MemoryCache
  owner : Option ℕ
  pc : Pc
  effect : Option (Op × Out)

/-- The call takes the lock, if it is free. -/
def acquire (i : ℕ) (c : MemoryCache) (owner : Option ℕ) (pc : Pc) : Option Progress :=
  if owner = none then some ⟨c, some i, pc, none⟩ else none

/-- A step of call `i`; `owner` is the call that holds the lock. -/
def Pc.advance (env : Symbols) (i : ℕ) (c : MemoryCache) (owner : Option ℕ) : Pc → Option Progress
  | apply x =>
    match c.allocCache.apply with
    | (pool, some p) => some ⟨{ c with allocCache := pool }, owner, setAddr x p, none⟩
    | (_, none) => some ⟨c, owner, done .dropped, some (.insert x.record, .dropped)⟩
  | setAddr x p =>
    some ⟨c.write p { c.allocCache.mCache p with addr := x.address }, owner, setSize x p, none⟩
  | setSize x p =>
    some ⟨c.write p { c.allocCache.mCache p with size := x.size.setWidth 32 }, owner,
      setTrace x p, none⟩
  | setTrace x p => (x.backtrace.store (c.allocCache.mCache p).trace).map fun t =>
    ⟨c.write p { c.allocCache.mCache p with trace := t }, owner, lockInsert x p, none⟩
  | lockInsert x p => acquire i c owner (setNext x p)
  | setNext x p =>
    some ⟨c.write p { c.allocCache.mCache p with next := c.allocTable (allocHash x.address) },
      owner, link x p, none⟩
  | link x p =>
    some ⟨{ c with allocTable := Function.update c.allocTable (allocHash x.address) (some p) },
      owner, unlock .done, some (.insert x.record, .done)⟩
  | test a =>
    if c.allocTable (allocHash a) = none then
      some ⟨c, owner, done .absent, some (.remove a, .absent)⟩
    else some ⟨c, owner, lockRemove a, none⟩
  | lockRemove a => acquire i c owner (unlink a)
  | unlink a =>
    (removeAlloc c.allocCache.mCache (c.allocTable (allocHash a)) a).map fun (mem, header, p) =>
      let c : MemoryCache :=
        { allocTable := Function.update c.allocTable (allocHash a) header
          allocCache := { c.allocCache with mCache := mem } }
      match p with
      | none => ⟨c, owner, unlock .absent, some (.remove a, .absent)⟩
      | some p => ⟨c, owner, unlockRemove p, some (.remove a, .done)⟩
  | unlockRemove p => some ⟨c, none, recycle p, none⟩
  | recycle p => some ⟨{ c with allocCache := c.allocCache.recycle p }, owner, done .done, none⟩
  | lockPrint => acquire i c owner (scan allBuckets none [])
  | scan buckets (some p) out => (writeTrace env (c.allocCache.mCache p)).map fun text =>
    ⟨c, owner, scan buckets (c.allocCache.next p) (out ++ text), none⟩
  | scan (h :: buckets) none out => some ⟨c, owner, scan buckets (c.allocTable h) out, none⟩
  | scan [] none out => some ⟨c, owner, unlock (.text out), some (.print, .text out)⟩
  | unlock out => some ⟨c, none, done out, none⟩
  | done _ => none

/-! ## A call alone -/

/-- `n` steps of the call `i`, while no other call makes any. -/
def Pc.alone (env : Symbols) (i : ℕ) : ℕ → MemoryCache → Option ℕ → Pc →
    Option (MemoryCache × Option ℕ × Pc)
  | 0, c, owner, pc => some (c, owner, pc)
  | n + 1, c, owner, pc =>
    (pc.advance env i c owner).bind fun x => x.pc.alone env i n x.cache x.owner

section alone
variable {env : Symbols} {i : ℕ} {c : MemoryCache} {owner : Option ℕ}

/-- **Alone, an insert is `MemoryCache.insert`.** -/
theorem insert_alone {x : Insertion} (hx : x.Fits) : ∃ n out, (Pc.apply x).alone env i n c none =
    (c.insert x.address x.size x.backtrace).map fun c' => (c', none, .done out) := by
  rcases hp : c.allocCache.apply with ⟨pool, _ | p⟩
  · refine ⟨1, .dropped, ?_⟩
    simp [Pc.alone, Pc.advance, MemoryCache.insert, hp]
  · obtain ⟨t, ht⟩ := Option.isSome_iff_exists.1
      ((x.backtrace.store_isSome (pool.mCache p).trace).2 hx)
    refine ⟨8, .done, ?_⟩
    simp [Pc.alone, Pc.advance, MemoryCache.insert, MemoryCache.write, acquire, hp, ht]

/-- **Alone, a remove is `MemoryCache.remove`.** -/
theorem remove_alone {a : Word} (h : (c.remove a).isSome) :
    ∃ n out, (Pc.test a).alone env i n c none =
      (c.remove a).map fun c' => (c', none, .done out) := by
  by_cases hnull : c.allocTable (allocHash a) = none
  · refine ⟨1, .absent, ?_⟩
    simp [Pc.alone, Pc.advance, MemoryCache.remove, hnull]
  · rcases he : removeAlloc c.allocCache.mCache (c.allocTable (allocHash a)) a with
      _ | ⟨mem, header, _ | p⟩
    · simp [MemoryCache.remove, hnull, he] at h
    · refine ⟨4, .absent, ?_⟩
      simp [Pc.alone, Pc.advance, MemoryCache.remove, acquire, hnull, he]
    · refine ⟨5, .done, ?_⟩
      simp [Pc.alone, Pc.advance, MemoryCache.remove, acquire, hnull, he]

theorem alone_add {c' : MemoryCache} {owner' : Option ℕ} {pc pc' : Pc} {m : ℕ}
    (h : pc.alone env i m c owner = some (c', owner', pc')) (n : ℕ) :
    pc.alone env i (m + n) c owner = pc'.alone env i n c' owner' := by
  induction m generalizing c owner pc with
  | zero =>
    cases h
    rw [Nat.zero_add]
  | succ m ih =>
    obtain ⟨x, hx, h⟩ := Option.bind_eq_some_iff.1 h
    rw [Nat.add_right_comm, Pc.alone, hx, Option.bind_some]
    exact ih h

/-- The inner loop of `print`. -/
theorem scan_chain {k : ℕ} {p : Option Ptr} {ps : List Ptr} {texts : List (List Char)}
    (hw : walk c.allocCache.next k p = some ps)
    (ht : (ps.mapM fun q => writeTrace env (c.allocCache.mCache q)) = some texts)
    (buckets : List (BitVec 16)) (out : List Char) :
    ∃ n, (Pc.scan buckets p out).alone env i n c owner =
      some (c, owner, .scan buckets none (out ++ texts.flatten)) := by
  induction ps generalizing k p out texts with
  | nil =>
    obtain rfl : p = none := by
      rcases p with _ | q
      · rfl
      · cases k <;> simp [walk] at hw
    cases ht
    exact ⟨0, by simp [Pc.alone]⟩
  | cons q ps ih =>
    cases p with
    | none => cases k <;> cases hw
    | some p =>
      cases k with
      | zero => cases hw
      | succ k =>
        obtain ⟨ps', hrest, hq⟩ := Option.map_eq_some_iff.1 hw
        obtain ⟨rfl, rfl⟩ := List.cons.inj hq
        simp only [List.mapM_cons, Option.bind_eq_bind, Option.bind_eq_some_iff, Option.pure_def,
          Option.some.injEq] at ht
        obtain ⟨text, htext, texts, ht, rfl⟩ := ht
        obtain ⟨n, hn⟩ := ih hrest ht (out ++ text)
        refine ⟨n + 1, ?_⟩
        rw [Pc.alone, Pc.advance, htext, Option.map_some, Option.bind_some, hn,
          List.flatten_cons, List.append_assoc]

/-- The outer loop of `print`. -/
theorem scan_buckets {buckets : List (BitVec 16)} {texts : List (List Char)}
    (ht : (buckets.mapM fun h => do
      let ps ← walk c.allocCache.next allocCacheSize (c.allocTable h)
      let texts ← ps.mapM fun p => writeTrace env (c.allocCache.mCache p)
      return texts.flatten) = some texts) (out : List Char) :
    ∃ n, (Pc.scan buckets none out).alone env i n c owner =
      some (c, owner, .scan [] none (out ++ texts.flatten)) := by
  induction buckets generalizing out texts with
  | nil =>
    cases ht
    exact ⟨0, by simp [Pc.alone]⟩
  | cons h buckets ih =>
    simp only [List.mapM_cons, Option.bind_eq_bind, Option.bind_eq_some_iff, Option.pure_def,
      Option.some.injEq] at ht
    obtain ⟨_, ⟨ps, hw, chain, hc, rfl⟩, texts, ht, rfl⟩ := ht
    obtain ⟨m, hm⟩ := @scan_chain env i c owner _ _ _ _ hw hc buckets out
    obtain ⟨n, hn⟩ := ih ht (out ++ chain.flatten)
    refine ⟨m + n + 1, ?_⟩
    rw [Pc.alone, Pc.advance, Option.bind_some, alone_add hm, hn, List.flatten_cons,
      List.append_assoc]

/-- **Alone, a print is `MemoryCache.print`.** -/
theorem print_alone {text : List Char} (h : c.print env = some text) :
    ∃ n, Pc.lockPrint.alone env i n c none = some (c, none, .done (.text text)) := by
  obtain ⟨texts, ht, rfl⟩ := Option.map_eq_some_iff.1 h
  obtain ⟨n, hn⟩ := @scan_buckets env i c (some i) _ _ ht []
  refine ⟨n + 2 + 1, ?_⟩
  rw [Pc.alone, Pc.advance, acquire, if_pos rfl, Option.bind_some, alone_add hn]
  rfl

end alone

/-! ## Threads -/

/-- A call as it is made. -/
inductive Request
  | insert (x : Insertion)
  | remove (a : Word)
  | print

def Request.op : Request → Op
  | insert x => .insert x.record
  | remove a => .remove a
  | print => .print

def Request.entry : Request → Pc
  | insert x => .apply x
  | remove a => .test a
  | print => .lockPrint

/-- The shared state, and the calls in progress with their numbers, each in a
    thread of its own. -/
structure State where
  cache : MemoryCache
  owner : Option ℕ
  calls : List (ℕ × Pc)
  /-- how many calls were made -/
  made : ℕ
  history : List (Moment ℕ Op Out)

inductive Label
  /-- a thread makes a call -/
  | call (r : Request)
  /-- the `n`-th of the calls in progress goes on, or returns -/
  | go (n : ℕ)

namespace State

/-- The step `x` of the `n`-th call, whose number is `i`. -/
def put (s : State) (n i : ℕ) (x : Progress) : State where
  cache := x.cache
  owner := x.owner
  calls := s.calls.set n (i, x.pc)
  made := s.made
  history := match x.effect with
    | none => s.history
    | some (op, out) => .effect i op out :: s.history

def step (env : Symbols) (s : State) : Label → Option State
  | .call r => some { s with
      calls := (s.made, r.entry) :: s.calls
      made := s.made + 1
      history := .call s.made r.op :: s.history }
  | .go n => s.calls[n]?.bind fun (i, pc) => match pc.returned with
    | some out => some { s with calls := s.calls.eraseIdx n, history := .ret i out :: s.history }
    | none => (pc.advance env i s.cache s.owner).map (s.put n i)

/-- The table is reset, and no call was made. -/
def init (c : MemoryCache) : State := ⟨c.reset, none, [], 0, []⟩

end State

/-- The nodes that calls have in hand. -/
def hand (calls : List (ℕ × Pc)) : List Ptr := calls.filterMap (·.2.node)

end Concurrent

end Raphael
