/-
  The record table refines a store of records.

  The store is the list of its records, the most recently inserted one first,
  of at most `ALLOC_CACHE_SIZE`.  `Refines c s`: the table `c` has a layout
  whose live nodes carry the records `s`.  Each operation of the table does on
  the store what its name says (`Refines.insert`, `Refines.remove`,
  `Refines.print`), so every run of operations does (`run_refines`).
-/
import Raphael.Report
import Raphael.Lib.Lts
import Mathlib.Data.List.TakeWhile

namespace Raphael

open Linked

/-! ## The store -/

/-- The records held, the most recently inserted one first. -/
abbrev Store := List Record

namespace Store

def insert (s : Store) (r : Record) : Store := if s.length < allocCacheSize then r :: s else s

/-- Delete the most recently inserted record with the address `a`. -/
def remove (s : Store) (a : Word) : Store := s.eraseP (·.addr = a)

/-- The records whose address hashes to `h`. -/
def bucket (s : Store) (h : BitVec 16) : List Record := s.filter (allocHash ·.addr = h)

/-- The records in the order of the report. -/
def inOrder (s : Store) : List Record := allBuckets.flatMap s.bucket

end Store

/-- Listing a list key by key permutes it. -/
theorem flatMap_filter_perm {α κ : Type} [DecidableEq κ] (key : α → κ) {B : List κ}
    (hB : B.Nodup) {l : List α} (h : ∀ x ∈ l, key x ∈ B) :
    (B.flatMap fun k => l.filter (key · = k)).Perm l := by
  induction l with
  | nil => simp
  | cons x l ih =>
    have ih := ih fun y hy => h y (List.mem_cons_of_mem x hy)
    obtain ⟨B₁, B₂, rfl⟩ := List.append_of_mem (h x List.mem_cons_self)
    have hx := (List.nodup_middle.1 hB).notMem
    have hne : ∀ B' : List κ, key x ∉ B' →
        (B'.flatMap fun k => (x :: l).filter (key · = k)) =
          B'.flatMap fun k => l.filter (key · = k) := fun B' hB' =>
      List.flatMap_congr fun k hk => by
        rw [List.filter_cons_of_neg]
        simp only [decide_eq_true_eq]
        exact fun e => hB' (e ▸ hk)
    simp only [List.mem_append, not_or] at hx
    rw [List.flatMap_append, List.flatMap_cons] at ih ⊢
    rw [hne B₁ hx.1, hne B₂ hx.2, List.filter_cons_of_pos (by simp)]
    exact List.perm_middle.trans (ih.cons x)

theorem mem_allBuckets (h : BitVec 16) : h ∈ allBuckets :=
  List.mem_map.2 ⟨h.toNat, List.mem_range.2 h.isLt, by simp⟩

theorem nodup_map_ofNat {N w : ℕ} (hN : N ≤ 2 ^ w) :
    ((List.range N).map (BitVec.ofNat w)).Nodup := by
  refine List.Nodup.map_on (fun a ha b hb e => ?_) List.nodup_range
  have := congrArg BitVec.toNat e
  simp only [BitVec.toNat_ofNat] at this
  rwa [Nat.mod_eq_of_lt ((List.mem_range.1 ha).trans_le hN),
    Nat.mod_eq_of_lt ((List.mem_range.1 hb).trans_le hN)] at this

theorem allBuckets_nodup : allBuckets.Nodup := by
  have h : allocIndexSize ≤ 2 ^ 16 := by decide
  exact nodup_map_ofNat h

/-- The report lists every record exactly once. -/
theorem Store.inOrder_perm (s : Store) : s.inOrder.Perm s := by
  unfold Store.inOrder Store.bucket
  exact flatMap_filter_perm (fun r : Record => allocHash r.addr) allBuckets_nodup
    fun _ _ => mem_allBuckets _

/-! ## Refinement of the operations -/

/-- The table `c` holds the records `s`. -/
def Refines (c : MemoryCache) (s : Store) : Prop :=
  ∃ live free, Layout c live free ∧ s = live.map c.recordAt

namespace Refines
variable {c : MemoryCache} {s : Store}

theorem reset (hc : c.allocCache.mCount = allocCacheSize) : Refines c.reset [] :=
  ⟨[], [], Layout.reset hc, rfl⟩

theorem count (R : Refines c s) : c.allocCache.mCount = allocCacheSize := by
  obtain ⟨live, free, L, -⟩ := R; exact L.count

theorem bucket (R : Refines c s) (h : BitVec 16) : c.bucket h = s.bucket h := by
  obtain ⟨live, free, L, rfl⟩ := R; exact L.bucket_eq h

theorem held (R : Refines c s) (a : Word) : c.held a = s.filter (·.addr = a) := by
  obtain ⟨live, free, L, rfl⟩ := R; exact L.held_eq a

/-- **The pool is exhausted iff `ALLOC_CACHE_SIZE` records are held.** -/
theorem full_iff (R : Refines c s) : c.full = true ↔ s.length = allocCacheSize := by
  obtain ⟨live, free, L, rfl⟩ := R; simpa using L.full_iff

theorem length_le (R : Refines c s) : s.length ≤ allocCacheSize := by
  obtain ⟨live, free, L, rfl⟩ := R; simpa using L.length_le

theorem insert (R : Refines c s) {a n : Word} {bt : Backtrace}
    (hbt : bt.depth.toNat ≤ maxTraceDepth) : ∃ c', c.insert a n bt = some c' ∧
      Refines c' (s.insert ⟨a, n.setWidth 32, bt.stored⟩) := by
  have hle := R.length_le
  have hfull := R.full_iff
  obtain ⟨live, free, L, rfl⟩ := R
  by_cases hf : c.full = true
  · refine ⟨c, L.insert_full hf .., live, free, L, ?_⟩
    rw [Store.insert, if_neg (by have := hfull.1 hf; omega)]
  · obtain ⟨c', p, free', h, L', hp, hold⟩ := L.insert (a := a) (n := n) (by simpa using hf) hbt
    refine ⟨c', h, p :: live, free', L', ?_⟩
    rw [Store.insert, if_pos (by have := mt hfull.2 hf; omega), List.map_cons, hp,
      List.map_congr_left hold]

/-- Deleting the record of the first node with the address. -/
theorem remove_map {l₁ l₂ : List Ptr} {p : Ptr} {a : Word}
    (hl : ∀ x ∈ l₁, (c.allocCache.mCache x).addr ≠ a) (hp : (c.allocCache.mCache p).addr = a) :
    Store.remove ((l₁ ++ p :: l₂).map c.recordAt) a = (l₁ ++ l₂).map c.recordAt := by
  rw [Store.remove, List.map_append, List.map_append, List.map_cons, List.eraseP_append_right,
    List.eraseP_cons_of_pos]
  · exact decide_eq_true hp
  · intro r hr
    obtain ⟨y, hy, rfl⟩ := List.mem_map.1 hr
    exact fun h => hl y hy (of_decide_eq_true h)

/-- The most recent node with the address. -/
theorem exists_first {live : List Ptr} {a : Word} (h : ∃ x ∈ live, (c.allocCache.mCache x).addr = a) :
    ∃ l₁ p l₂, live = l₁ ++ p :: l₂ ∧ (∀ x ∈ l₁, (c.allocCache.mCache x).addr ≠ a) ∧
      (c.allocCache.mCache p).addr = a := by
  obtain ⟨x, hx, hxa⟩ := h
  obtain ⟨p, l₁, l₂, hl, hp, e, -⟩ := List.exists_of_eraseP
    (p := fun x => decide ((c.allocCache.mCache x).addr = a)) hx (by simpa using hxa)
  exact ⟨l₁, p, l₂, e, fun y hy => by simpa using hl y hy, by simpa using hp⟩

theorem remove (R : Refines c s) (a : Word) :
    ∃ c', c.remove a = some c' ∧ Refines c' (s.remove a) := by
  obtain ⟨live, free, L, rfl⟩ := R
  by_cases h : ∃ x ∈ live, (c.allocCache.mCache x).addr = a
  · obtain ⟨l₁, p, l₂, rfl, hl, hp⟩ := exists_first h
    obtain ⟨c', e, L', hold⟩ := L.remove_hit hl hp
    refine ⟨c', e, l₁ ++ l₂, p :: free, L', ?_⟩
    rw [List.map_congr_left hold, remove_map hl hp]
  · push Not at h
    refine ⟨c, L.remove_miss h, live, free, L, ?_⟩
    rw [Store.remove, List.eraseP_of_forall_not]
    intro r hr
    obtain ⟨y, hy, rfl⟩ := List.mem_map.1 hr
    exact fun e => h y hy (of_decide_eq_true e)

/-- A node can be filled only from a backtrace that fits. -/
theorem depth_le_of_insert {c' : MemoryCache} {a n : Word} {bt : Backtrace} (hf : c.full = false)
    (e : c.insert a n bt = some c') : bt.depth.toNat ≤ maxTraceDepth := by
  unfold MemoryCache.full at hf
  unfold MemoryCache.insert at e
  split at e
  · next h => simp [h] at hf
  · next pool p h =>
    obtain ⟨t, ht, -⟩ := Option.bind_eq_some_iff.1 e
    exact (bt.store_isSome _).1 (Option.isSome_of_eq_some ht)

theorem not_full_iff (R : Refines c s) : c.full = false ↔ s.length < allocCacheSize := by
  have hle := R.length_le
  rw [← Bool.not_eq_true, R.full_iff]
  omega

/-- What an insertion that found room has done. -/
theorem of_insert (R : Refines c s) {c' : MemoryCache} {a n : Word} {bt : Backtrace}
    (hf : c.full = false) (e : c.insert a n bt = some c') :
    Refines c' (⟨a, n.setWidth 32, bt.stored⟩ :: s) := by
  obtain ⟨c₁, e₁, R₁⟩ := R.insert (a := a) (n := n) (depth_le_of_insert hf e)
  obtain rfl := Option.some.inj (e.symm.trans e₁)
  rwa [Store.insert, if_pos (R.not_full_iff.1 hf)] at R₁

/-- What a removal has done. -/
theorem of_remove (R : Refines c s) {c' : MemoryCache} {a : Word} (e : c.remove a = some c') :
    Refines c' (s.remove a) := by
  obtain ⟨c₁, e₁, R₁⟩ := R.remove a
  obtain rfl := Option.some.inj (e.symm.trans e₁)
  exact R₁

theorem print (R : Refines c s) (env : Symbols) :
    c.print env = some (s.inOrder.flatMap (Record.block env)) := by
  have hb : c.bucket = s.bucket := funext R.bucket
  obtain ⟨live, free, L, rfl⟩ := R
  rw [L.print_eq, hb]; rfl

end Refines

/-! ## The records of an address -/

/-- The table is in order: it holds the records of some store. -/
def MemoryCache.Wf (c : MemoryCache) : Prop := ∃ s, Refines c s

namespace MemoryCache.Wf
variable {c c' : MemoryCache} {a n : Word} {bt : Backtrace}

theorem reset (hc : c.allocCache.mCount = allocCacheSize) : c.reset.Wf := ⟨[], Refines.reset hc⟩

theorem held_reset (hc : c.allocCache.mCount = allocCacheSize) (b : Word) : c.reset.held b = [] :=
  (Refines.reset hc).held b

theorem hash_of_mem_bucket (h : c.Wf) {k : BitVec 16} {r : Record} (hr : r ∈ c.bucket k) :
    allocHash r.addr = k := by
  obtain ⟨s, R⟩ := h
  rw [R.bucket] at hr; simpa using (List.mem_filter.1 hr).2

theorem insert_isSome (h : c.Wf) (hbt : bt.depth.toNat ≤ maxTraceDepth) :
    ∃ c', c.insert a n bt = some c' := by
  obtain ⟨s, R⟩ := h
  obtain ⟨c', e, -⟩ := R.insert (a := a) (n := n) hbt
  exact ⟨c', e⟩

/-- **insert** puts a record in front of those of its address. -/
theorem held_insert (h : c.Wf) (hf : c.full = false) (e : c.insert a n bt = some c') :
    c'.Wf ∧ ∀ b, c'.held b =
      if a = b then ⟨a, n.setWidth 32, bt.stored⟩ :: c.held b else c.held b := by
  obtain ⟨s, R⟩ := h
  have R' := R.of_insert hf e
  refine ⟨⟨_, R'⟩, fun b => ?_⟩
  rw [R'.held, R.held, List.filter_cons]
  simp only [decide_eq_true_eq]

theorem insert_of_full (h : c.Wf) (hf : c.full = true) (e : c.insert a n bt = some c') :
    c' = c := by
  obtain ⟨s, live, free, L, -⟩ := h
  exact Option.some.inj (e.symm.trans (L.insert_full hf a n bt))

theorem remove_isSome (h : c.Wf) (a : Word) : ∃ c', c.remove a = some c' := by
  obtain ⟨s, R⟩ := h
  obtain ⟨c', e, -⟩ := R.remove a
  exact ⟨c', e⟩

/-- Removing makes no pool full. -/
theorem not_full_remove (h : c.Wf) (hf : c.full = false) (e : c.remove a = some c') :
    c'.full = false := by
  obtain ⟨s, R⟩ := h
  have hle : (s.remove a).length ≤ s.length := List.length_eraseP_le
  exact (R.of_remove e).not_full_iff.2 (hle.trans_lt (R.not_full_iff.1 hf))

/-- **remove** drops the front record of its address. -/
theorem held_remove (h : c.Wf) (e : c.remove a = some c') :
    c'.Wf ∧ ∀ b, c'.held b = if a = b then (c.held b).tail else c.held b := by
  obtain ⟨s, R⟩ := h
  have R' := R.of_remove e
  refine ⟨⟨_, R'⟩, fun b => ?_⟩
  rw [R'.held, R.held, Store.remove]
  clear R R' e
  induction s with
  | nil => simp
  | cons r s ih =>
    by_cases hr : r.addr = a
    · rw [List.eraseP_cons_of_pos (by simpa using hr)]
      by_cases hb : a = b
      · simp [hb, hr]
      · rw [List.filter_cons_of_neg (by simpa [hr] using hb), if_neg hb]
    · rw [List.eraseP_cons_of_neg (by simpa using hr), List.filter_cons, List.filter_cons, ih]
      by_cases hb : a = b
      · subst hb; simp [hr]
      · simp [hb]

end MemoryCache.Wf

/-! ## Histories -/

/-- A backtrace of 3 to `MAX_TRACE_DEPTH` non-zero frames. -/
structure FullBacktrace extends Backtrace where
  three_le : 3 ≤ depth.toNat
  le_max : depth.toNat ≤ maxTraceDepth
  nonzero : ∀ i : Fin maxTraceDepth, i.1 < depth.toNat → trace i ≠ 0

/-- The frames of a backtrace. -/
def Backtrace.captured (bt : Backtrace) : List Word := (List.ofFn bt.trace).take bt.depth.toNat

/-- From a full backtrace all frames from the third on are stored. -/
theorem FullBacktrace.stored_eq (bt : FullBacktrace) :
    bt.stored = bt.captured.drop 2 := by
  have h3 := bt.three_le
  have hd : bt.storedDepth = bt.depth.toNat - 2 := by
    rw [Backtrace.storedDepth_eq, if_pos (by omega)]
  rw [Backtrace.stored, Backtrace.captured, hd, List.drop_take, List.takeWhile_eq_self_iff]
  intro v hv
  obtain ⟨i, hi, rfl⟩ := List.getElem_of_mem hv
  simp only [List.length_take, List.length_drop, List.length_ofFn] at hi
  simp only [List.getElem_take, List.getElem_drop, List.getElem_ofFn]
  simpa using bt.nonzero ⟨2 + i, by omega⟩ (by simp only; omega)

/-- The operations of the table, called one after another. -/
inductive CacheOp
  | insert (address : Word) (size : BitVec 32) (backtrace : FullBacktrace)
  | remove (address : Word)
  | print
  | reset

/-- One operation on the table; the texts of the reports are kept. -/
def CacheOp.exec (env : Symbols) (s : MemoryCache × List (List Char)) :
    CacheOp → Option (MemoryCache × List (List Char))
  | insert address size bt =>
    (s.1.insert address (size.setWidth 64) bt.toBacktrace).map (·, s.2)
  | remove address => (s.1.remove address).map (·, s.2)
  | print => (s.1.print env).map fun text => (s.1, s.2 ++ [text])
  | reset => some (s.1.reset, s.2)

/-- The same operation on the store; the stores that were printed are kept. -/
def CacheOp.refer (s : Store × List Store) : CacheOp → Store × List Store
  | insert address size bt => (s.1.insert ⟨address, size, bt.captured.drop 2⟩, s.2)
  | remove address => (s.1.remove address, s.2)
  | print => (s.1, s.2 ++ [s.1])
  | reset => ([], s.2)

/-- The store after a history from the empty one, and the stores printed on the
    way. -/
def history (ops : List CacheOp) : Store × List Store := ops.foldl CacheOp.refer ([], [])

/-- The report of a store. -/
def Store.report (env : Symbols) (s : Store) : List Char := s.inOrder.flatMap (Record.block env)

theorem CacheOp.exec_refer (env : Symbols) {c : MemoryCache} {s : Store} (printed : List Store)
    (R : Refines c s) (op : CacheOp) :
    ∃ c', op.exec env (c, printed.map (Store.report env)) =
        some (c', (op.refer (s, printed)).2.map (Store.report env)) ∧
      Refines c' (op.refer (s, printed)).1 := by
  cases op with
  | insert address size bt =>
    obtain ⟨c', e, R'⟩ := R.insert (a := address) (n := size.setWidth 64) bt.le_max
    refine ⟨c', by simp [CacheOp.exec, CacheOp.refer, e], ?_⟩
    rw [bt.stored_eq, show (size.setWidth 64).setWidth 32 = size by simp] at R'
    exact R'
  | remove address =>
    obtain ⟨c', e, R'⟩ := R.remove address
    exact ⟨c', by simp [CacheOp.exec, CacheOp.refer, e], R'⟩
  | print => exact ⟨c, by simp [CacheOp.exec, CacheOp.refer, R.print env, Store.report], R⟩
  | reset => exact ⟨c.reset, rfl, Refines.reset R.count⟩

theorem run_refines (env : Symbols) (ops : List CacheOp) {c : MemoryCache} {s : Store}
    (printed : List Store) (R : Refines c s) :
    ∃ c', Lts.run (CacheOp.exec env) (c, printed.map (Store.report env)) ops =
        some (c', (ops.foldl CacheOp.refer (s, printed)).2.map (Store.report env)) ∧
      Refines c' (ops.foldl CacheOp.refer (s, printed)).1 := by
  induction ops generalizing c s printed with
  | nil => exact ⟨c, rfl, R⟩
  | cons op ops ih =>
    obtain ⟨c₁, e, R₁⟩ := op.exec_refer env printed R
    obtain ⟨c', e', R'⟩ := ih _ R₁
    exact ⟨c', by rw [Lts.run_cons, e]; exact e', R'⟩

/-- The chains of the buckets and the free stack, as the pointers of `c` link
    them, hold every node of the pool in exactly one place. -/
structure Partition (c : MemoryCache) (chains : BitVec 16 → List Ptr) (free : List Ptr) :
    Prop where
  chain : ∀ h, Path c.allocCache.next (c.allocTable h) (chains h)
  stack : Path c.allocCache.next c.allocCache.mStack free
  acyclic : ∀ h, (chains h).Nodup
  acyclicFree : free.Nodup
  disjoint : ∀ h h', h ≠ h' → (chains h).Disjoint (chains h')
  ownBucket : ∀ h, ∀ p ∈ chains h, c.bucketOf p = h
  place : ∀ p < allocCacheSize,
    (p < c.allocCache.mIndex.toNat ∧ (∃! h, p ∈ chains h) ∧ p ∉ free) ∨
    (p < c.allocCache.mIndex.toNat ∧ (∀ h, p ∉ chains h) ∧ p ∈ free) ∨
    (c.allocCache.mIndex.toNat ≤ p ∧ (∀ h, p ∉ chains h) ∧ p ∉ free)

theorem Layout.partition {c : MemoryCache} {live free : List Ptr} (L : Layout c live free) :
    Partition c (fun h => live.filter (c.bucketOf · = h)) free where
  chain := L.chain
  stack := L.stack
  acyclic h := (L.chain h).nodup
  acyclicFree := L.stack.nodup
  disjoint h h' hne p hp hp' := by
    simp only [List.mem_filter, decide_eq_true_eq] at hp hp'
    exact hne (hp.2.symm.trans hp'.2)
  ownBucket h p hp := by simpa using (List.mem_filter.1 hp).2
  place p hp := by
    have hd := List.disjoint_of_nodup_append L.nodup
    have hmem := L.conserve.mem_iff (a := p)
    simp only [List.mem_append, List.mem_range] at hmem
    simp only [List.mem_filter, decide_eq_true_eq]
    by_cases hl : p ∈ live
    · exact Or.inl ⟨hmem.1 (Or.inl hl), ⟨_, ⟨hl, rfl⟩, fun h hh => hh.2.symm⟩, fun hf => hd hl hf⟩
    · by_cases hf : p ∈ free
      · exact Or.inr (Or.inl ⟨hmem.1 (Or.inr hf), fun h hh => hl hh.1, hf⟩)
      · refine Or.inr (Or.inr ⟨?_, fun h hh => hl hh.1, hf⟩)
        by_contra hlt
        rcases hmem.2 (by omega) with h | h
        exacts [hl h, hf h]

/-- **The table is a store.**  Every history of operations after a reset ends,
    whatever the memory held before, with a pointer structure whose buckets list
    the records of the store, whose nodes are all in exactly one place, whose
    reports were those of the store at the time, and which drops the next
    insertion iff `ALLOC_CACHE_SIZE` records are held. -/
theorem history_refines_store (env : Symbols) (allocTable : BitVec 16 → Option Ptr)
    (mCache : Ptr → AllocNode) (mIndex : BitVec 32) (mStack : Option Ptr) (ops : List CacheOp) :
    ∃ c chains free,
      Lts.run (CacheOp.exec env) ((MemoryCache.new allocTable mCache mIndex mStack).reset, []) ops =
        some (c, (history ops).2.map (Store.report env)) ∧
      (∀ s ∈ (history ops).2, s.inOrder.Perm s) ∧
      Partition c chains free ∧ (∀ h, (chains h).map c.recordAt = (history ops).1.bucket h) ∧
      (c.full = true ↔ (history ops).1.length = allocCacheSize) := by
  have R₀ : Refines (MemoryCache.new allocTable mCache mIndex mStack).reset [] :=
    Refines.reset rfl
  obtain ⟨c, e, R⟩ := run_refines env ops [] R₀
  have hfull := R.full_iff
  obtain ⟨live, free, L, hs⟩ := R
  refine ⟨c, _, free, e, fun s _ => s.inOrder_perm, L.partition, fun h => ?_, hfull⟩
  rw [history, hs, Store.bucket, List.filter_map]; rfl

end Raphael
