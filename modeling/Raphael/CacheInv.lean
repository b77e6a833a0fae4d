/-
  The invariant of the record table.

  `Layout c live free`: the pointer structure of `c` holds the nodes `live`,
  the most recently inserted one first, and has the nodes `free` on the free
  stack.  The chain of a bucket lists the live nodes whose address hashes to
  it, and every issued node is live or free, exactly once (`conserve`).

  `InHand c hand live free`: the same while the nodes `hand` are on their way
  from one place to another.  `apply` and `remove_alloc` take a node in hand
  (`InHand.apply_cases`, `InHand.unlink`), linking and `recycle` put it back
  (`InHand.link`, `InHand.recycle`).

  Each operation is described once on layouts (`Layout.reset`,
  `Layout.insert`, `Layout.remove_hit`, `Layout.remove_miss`).
-/
import Raphael.Cache

namespace Raphael

open Linked

namespace MemoryCache

/-- The bucket a node belongs to. -/
def bucketOf (c : MemoryCache) (p : Ptr) : BitVec 16 := allocHash (c.allocCache.mCache p).addr

def recordAt (c : MemoryCache) (p : Ptr) : Record := (c.allocCache.mCache p).record

/-- Write `n` to the node `p`. -/
def write (c : MemoryCache) (p : Ptr) (n : AllocNode) : MemoryCache :=
  { c with allocCache := { c.allocCache with mCache := Function.update c.allocCache.mCache p n } }

end MemoryCache

structure Layout (c : MemoryCache) (live free : List Ptr) : Prop where
  count : c.allocCache.mCount = allocCacheSize
  index : c.allocCache.mIndex.toNat ≤ allocCacheSize
  chain : ∀ h, Path c.allocCache.next (c.allocTable h) (live.filter (c.bucketOf · = h))
  stack : Path c.allocCache.next c.allocCache.mStack free
  conserve : (live ++ free).Perm (List.range c.allocCache.mIndex.toNat)
  ended : ∀ p ∈ live, (c.allocCache.mCache p).trace.frames.isSome

namespace Layout
variable {c : MemoryCache} {live free : List Ptr}

theorem nodup (L : Layout c live free) : (live ++ free).Nodup :=
  L.conserve.nodup_iff.2 List.nodup_range

theorem length_add (L : Layout c live free) :
    live.length + free.length = c.allocCache.mIndex.toNat := by
  simpa using L.conserve.length_eq

theorem length_le (L : Layout c live free) : live.length ≤ allocCacheSize := by
  have := L.length_add; have := L.index; omega

theorem reset (hc : c.allocCache.mCount = allocCacheSize) : Layout c.reset [] [] where
  count := hc
  index := Nat.zero_le _
  chain h := rfl
  stack := rfl
  conserve := by simp [MemoryCache.reset, AllocPool.reset]
  ended := by simp

/-! ## Nodes in hand -/

/-- The `next` fields after one node was rewritten. -/
theorem next_update (mem : Ptr → AllocNode) (p : Ptr) (n : AllocNode) :
    (fun q => (Function.update mem p n q).next) =
      Function.update (fun q => (mem q).next) p n.next := by
  funext q; by_cases hq : q = p <;> simp [hq]

/-- Nodes with the same address are in the same bucket. -/
theorem filter_bucketOf {c' : MemoryCache} {l : List Ptr}
    (h : ∀ q ∈ l, (c'.allocCache.mCache q).addr = (c.allocCache.mCache q).addr) (b : BitVec 16) :
    l.filter (c'.bucketOf · = b) = l.filter (c.bucketOf · = b) := by
  refine List.filter_congr fun q hq => ?_
  have e : c'.bucketOf q = c.bucketOf q := congrArg allocHash (h q hq)
  simp only [e]

end Layout

/-- A layout of all nodes but those of `hand`, which are neither in a chain nor
    on the free stack: they are on their way from `apply` to their insertion, or
    from their removal to `recycle`. -/
structure InHand (c : MemoryCache) (hand live free : List Ptr) : Prop where
  count : c.allocCache.mCount = allocCacheSize
  index : c.allocCache.mIndex.toNat ≤ allocCacheSize
  chain : ∀ h, Path c.allocCache.next (c.allocTable h) (live.filter (c.bucketOf · = h))
  stack : Path c.allocCache.next c.allocCache.mStack free
  conserve : (hand ++ (live ++ free)).Perm (List.range c.allocCache.mIndex.toNat)
  ended : ∀ q ∈ live, (c.allocCache.mCache q).trace.frames.isSome

theorem Layout.inHand {c : MemoryCache} {live free : List Ptr} (L : Layout c live free) :
    InHand c [] live free :=
  ⟨L.count, L.index, L.chain, L.stack, L.conserve, L.ended⟩

namespace InHand
variable {c : MemoryCache} {p : Ptr} {hand live free : List Ptr}

theorem layout (L : InHand c [] live free) : Layout c live free :=
  ⟨L.count, L.index, L.chain, L.stack, L.conserve, L.ended⟩

theorem perm {hand' : List Ptr} (L : InHand c hand live free) (h : hand'.Perm hand) :
    InHand c hand' live free :=
  { L with conserve := (h.append_right _).trans L.conserve }

theorem nodup (L : InHand c hand live free) : (hand ++ (live ++ free)).Nodup :=
  L.conserve.nodup_iff.2 List.nodup_range

theorem notMem (L : InHand c hand live free) (hp : p ∈ hand) : p ∉ live ++ free :=
  List.disjoint_of_nodup_append L.nodup hp

theorem ne_of_mem (L : InHand c hand live free) (hp : p ∈ hand) {q : Ptr} (hq : q ∈ live) :
    q ≠ p := by
  rintro rfl
  exact L.notMem hp (List.mem_append_left free hq)

theorem length_add (L : InHand c hand live free) :
    hand.length + (live.length + free.length) = c.allocCache.mIndex.toNat := by
  simpa using L.conserve.length_eq

theorem length_le (L : InHand c hand live free) : live.length ≤ allocCacheSize := by
  have := L.length_add; have := L.index; omega

/-- Whatever is written to a node in hand, the others stay in place. -/
theorem write (L : InHand c hand live free) (hp : p ∈ hand) (n : AllocNode) :
    InHand (c.write p n) hand live free := by
  have hnext : (c.write p n).allocCache.next = Function.update c.allocCache.next p n.next :=
    Layout.next_update ..
  have hother : ∀ q ∈ live, (c.write p n).allocCache.mCache q = c.allocCache.mCache q :=
    fun q hq => Function.update_of_ne (L.ne_of_mem hp hq) ..
  refine ⟨L.count, L.index, fun h => ?_, ?_, L.conserve, fun q hq => ?_⟩
  · rw [hnext, Layout.filter_bucketOf fun q hq => congrArg AllocNode.addr (hother q hq)]
    exact (L.chain h).update (fun h => L.ne_of_mem hp (List.mem_filter.1 h).1 rfl) _
  · rw [hnext]
    exact L.stack.update (fun h => L.notMem hp (List.mem_append_right live h)) _
  · rw [hother q hq]
    exact L.ended q hq

/-- Put a node in hand in front of the bucket `h`, which it belongs to. -/
theorem link (L : InHand c (p :: hand) live free) {h : BitVec 16} (hb : c.bucketOf p = h)
    (hn : c.allocCache.next p = c.allocTable h)
    (ht : (c.allocCache.mCache p).trace.frames.isSome) :
    InHand { c with allocTable := Function.update c.allocTable h (some p) } hand (p :: live)
      free where
  count := L.count
  index := L.index
  chain h' := by
    change Path c.allocCache.next (Function.update c.allocTable h (some p) h')
      ((p :: live).filter (c.bucketOf · = h'))
    by_cases hh : h = h'
    · subst hh
      rw [List.filter_cons_of_pos (by simpa using hb), Function.update_self]
      refine ⟨rfl, ?_⟩
      rw [hn]
      exact L.chain h
    · rw [List.filter_cons_of_neg (by simpa [hb] using hh), Function.update_of_ne (Ne.symm hh)]
      exact L.chain h'
  stack := L.stack
  conserve := List.perm_middle.trans L.conserve
  ended := List.forall_mem_cons.2 ⟨ht, L.ended⟩

/-- Put a node in hand on the free stack. -/
theorem recycle (L : InHand c (p :: hand) live free) :
    InHand { c with allocCache := c.allocCache.recycle p } hand live (p :: free) := by
  have W := L.write List.mem_cons_self { c.allocCache.mCache p with next := c.allocCache.mStack }
  have hn : (c.allocCache.recycle p).next p = c.allocCache.mStack := by
    simp [AllocPool.next, AllocPool.recycle]
  refine ⟨W.count, W.index, W.chain, ⟨rfl, ?_⟩, ?_, W.ended⟩
  · rw [hn]
    exact W.stack
  · refine List.Perm.trans ?_ W.conserve
    rw [← List.append_assoc, List.cons_append, ← List.append_assoc]
    exact List.perm_middle

/-- What `apply` does: it takes a node in hand, and it finds none iff all nodes
    are live or in hand. -/
theorem apply_cases (L : InHand c hand live free) :
    (∃ pool p free', c.allocCache.apply = (pool, some p) ∧ pool.mCache = c.allocCache.mCache ∧
      InHand { c with allocCache := pool } (p :: hand) live free' ∧
      live.length + hand.length < allocCacheSize) ∨
    (c.allocCache.apply = (c.allocCache, none) ∧ live.length + hand.length = allocCacheSize) := by
  have hlen := L.length_add
  have hidx := L.index
  rcases free with _ | ⟨p, free'⟩
  · have hs : c.allocCache.mStack = none := L.stack
    simp only [List.length_nil, Nat.add_zero] at hlen
    by_cases hi : c.allocCache.mIndex.toNat < allocCacheSize
    · have hsucc : (c.allocCache.mIndex + 1).toNat = c.allocCache.mIndex.toNat + 1 := by
        have : allocCacheSize = 32768 := rfl
        rw [BitVec.toNat_add]; simp; omega
      refine Or.inl ⟨{ c.allocCache with mIndex := c.allocCache.mIndex + 1 },
        c.allocCache.mIndex.toNat, [], by simp only [AllocPool.apply, hs, L.count, if_pos hi], rfl,
        ⟨L.count, ?_, L.chain, L.stack, ?_, L.ended⟩, by omega⟩
      · simp only [hsucc]; omega
      · simp only [hsucc, List.range_succ]
        exact (L.conserve.cons _).trans (List.perm_append_singleton _ _).symm
    · exact Or.inr ⟨by simp only [AllocPool.apply, hs, L.count, if_neg hi], by omega⟩
  · obtain ⟨hs, hf⟩ := L.stack
    refine Or.inl ⟨{ c.allocCache with mStack := c.allocCache.next p }, p, free',
      by simp only [AllocPool.apply, hs], rfl, ⟨L.count, hidx, L.chain, hf, ?_, L.ended⟩, ?_⟩
    · refine List.Perm.trans ?_ L.conserve
      rw [← List.append_assoc, ← List.append_assoc]
      exact List.perm_middle.symm
    · simp at hlen; omega

/-- The pool is exhausted iff no node is free. -/
theorem full_iff (L : InHand c hand live free) :
    c.full = true ↔ live.length + hand.length = allocCacheSize := by
  rw [MemoryCache.full]
  rcases L.apply_cases with ⟨pool, p, free', e, -, -, hl⟩ | ⟨e, hl⟩
  · simp [e]; omega
  · simp [e, hl]

theorem chain_eq (L : InHand c hand live free) (h : BitVec 16) :
    c.chain h = live.filter (c.bucketOf · = h) := by
  rw [MemoryCache.chain, (L.chain h).walk ((List.length_filter_le ..).trans L.length_le)]
  rfl

theorem bucket_eq (L : InHand c hand live free) (h : BitVec 16) :
    c.bucket h = (live.map c.recordAt).filter (allocHash ·.addr = h) := by
  rw [MemoryCache.bucket, L.chain_eq, List.filter_map]; rfl

end InHand

namespace Layout
variable {c : MemoryCache} {live free : List Ptr}

/-! ## What a layout says about the buckets -/

theorem full_iff (L : Layout c live free) : c.full = true ↔ live.length = allocCacheSize :=
  L.inHand.full_iff

theorem bucket_eq (L : Layout c live free) (h : BitVec 16) :
    c.bucket h = (live.map c.recordAt).filter (allocHash ·.addr = h) := L.inHand.bucket_eq h

theorem held_eq (L : Layout c live free) (a : Word) :
    c.held a = (live.map c.recordAt).filter (·.addr = a) := by
  rw [MemoryCache.held, L.bucket_eq, List.filter_filter]
  refine List.filter_congr fun r _ => ?_
  by_cases h : r.addr = a <;> simp [h]

/-! ## insert -/

theorem insert_full (L : Layout c live free) (hf : c.full = true) (a n : Word) (bt : Backtrace) :
    c.insert a n bt = some c := by
  rcases L.inHand.apply_cases with ⟨pool, p, free', e, -⟩ | ⟨e, -⟩
  · simp [MemoryCache.full, e] at hf
  · simp [MemoryCache.insert, e]

/-- **insert** puts one more live node in front. -/
theorem insert (L : Layout c live free) (hf : c.full = false) {a n : Word} {bt : Backtrace}
    (hbt : bt.depth.toNat ≤ maxTraceDepth) :
    ∃ c' p free', c.insert a n bt = some c' ∧ Layout c' (p :: live) free' ∧
      c'.recordAt p = ⟨a, n.setWidth 32, bt.stored⟩ ∧ ∀ q ∈ live, c'.recordAt q = c.recordAt q := by
  rcases L.inHand.apply_cases with ⟨pool, p, free', e, hmem, L₁, -⟩ | ⟨e, -⟩
  swap
  · simp [MemoryCache.full, e] at hf
  obtain ⟨t, ht⟩ := Option.isSome_iff_exists.1 ((bt.store_isSome (pool.mCache p).trace).2 hbt)
  obtain ⟨node, hnode⟩ : ∃ node : AllocNode,
    node = ⟨n.setWidth 32, a, t, c.allocTable (allocHash a)⟩ := ⟨_, rfl⟩
  have L₂ := L₁.write List.mem_cons_self node
  obtain ⟨c₂, hc₂⟩ : ∃ c₂ : MemoryCache, c₂ = MemoryCache.write { c with allocCache := pool } p node :=
    ⟨_, rfl⟩
  rw [← hc₂] at L₂
  have hself : c₂.allocCache.mCache p = node := by rw [hc₂]; exact Function.update_self ..
  have hother : ∀ q ∈ live, c₂.allocCache.mCache q = c.allocCache.mCache q := by
    intro q hq
    rw [hc₂, ← hmem]
    exact Function.update_of_ne (L₁.ne_of_mem List.mem_cons_self hq) ..
  have L₃ : Layout { c₂ with allocTable := Function.update c₂.allocTable (allocHash a) (some p) }
      (p :: live) free' := by
    refine (L₂.link ?_ ?_ ?_).layout
    · rw [MemoryCache.bucketOf, hself, hnode]
    · rw [AllocPool.next, hself, hnode, hc₂]; rfl
    · rw [hself, hnode, Backtrace.frames_store ht]; rfl
  refine ⟨_, p, free', ?_, L₃, ?_, fun q hq => ?_⟩
  · simp only [MemoryCache.insert, e, ht, Option.bind_eq_bind, Option.bind_some, hc₂, hnode]
    rfl
  · simp only [MemoryCache.recordAt, hself, AllocNode.record, hnode, Backtrace.frames_store ht,
      Option.getD_some]
  · simp only [MemoryCache.recordAt, hother q hq]

/-! ## remove -/

/-- `remove_alloc` on a chain with a node of the address `a`: the first one is
    unlinked, by rewriting the header or one `next` field before it. -/
theorem removeAlloc_hit {mem : Ptr → AllocNode} {header : Option Ptr} {a : Word}
    {l₁ l₂ : List Ptr} {p : Ptr} (hp : Path (fun q => (mem q).next) header (l₁ ++ p :: l₂))
    (hl : ∀ x ∈ l₁, (mem x).addr ≠ a) (ha : (mem p).addr = a)
    (hlen : (l₁ ++ p :: l₂).length ≤ allocCacheSize) :
    ∃ mem' header', removeAlloc mem header a = some (mem', header', some p) ∧
      Path (fun q => (mem' q).next) header' (l₁ ++ l₂) ∧ (∀ q ∉ l₁, mem' q = mem q) ∧
      ∀ q, ∃ nx, mem' q = { mem q with next := nx } := by
  rcases l₁ with _ | ⟨x, l⟩
  · obtain ⟨rfl, hp⟩ := hp
    exact ⟨mem, (mem p).next, by simp [removeAlloc, ha], hp, fun _ _ => rfl, fun q => ⟨_, rfl⟩⟩
  · obtain ⟨rfl, hx⟩ := hp
    have hpath : Path (fun q => (mem q).next) (some x) (x :: (l ++ p :: l₂)) := ⟨rfl, hx⟩
    obtain ⟨l₀, y, e, hy⟩ := Path.seek_hit (f := fun q => decide ((mem q).addr = a))
      (n := allocCacheSize) hx (fun z hz => by simpa using hl z (by simp [hz])) (by simpa using ha)
      (by simp at hlen; omega)
    rw [show x :: (l ++ p :: l₂) = l₀ ++ y :: p :: l₂ by
      rw [← List.cons_append, e]; simp] at hpath
    have hyp : (mem y).next = some p := hpath.suffix.1
    refine ⟨Function.update mem y { mem y with next := (mem p).next }, some x, ?_, ?_,
      fun q hq => ?_, fun q => ?_⟩
    · simp [removeAlloc, hl x (by simp), hy, hyp]
    · rw [next_update, e, List.append_assoc]; exact hpath.unlink
    · exact Function.update_of_ne (fun h => hq (by rw [e, h]; simp)) ..
    · by_cases hq : q = y
      · subst hq; exact ⟨_, Function.update_self ..⟩
      · exact ⟨(mem q).next, Function.update_of_ne hq ..⟩

theorem removeAlloc_miss {mem : Ptr → AllocNode} {header : Option Ptr} {a : Word} {l : List Ptr}
    (hp : Path (fun q => (mem q).next) header l) (hl : ∀ x ∈ l, (mem x).addr ≠ a)
    (hlen : l.length ≤ allocCacheSize) : removeAlloc mem header a = some (mem, header, none) := by
  rcases l with _ | ⟨x, l⟩
  · cases hp; rfl
  · obtain ⟨rfl, hx⟩ := hp
    obtain ⟨y, hy, e⟩ := Path.seek_miss (f := fun q => decide ((mem q).addr = a))
      (n := allocCacheSize) hx (fun z hz => by simpa using hl z (by simp [hz]))
      (by simp at hlen; omega)
    simp [removeAlloc, hl x (by simp), e, hy]

/-- **remove** changes nothing if no live node has the address. -/
theorem remove_miss (L : Layout c live free) {a : Word}
    (hl : ∀ x ∈ live, (c.allocCache.mCache x).addr ≠ a) : c.remove a = some c := by
  have e := removeAlloc_miss (L.chain (allocHash a)) (fun x hx => hl x (List.mem_filter.1 hx).1)
    ((List.length_filter_le ..).trans L.length_le)
  simp [MemoryCache.remove, e]

end Layout

section unlink
variable {c : MemoryCache} {hand l₁ l₂ free : List Ptr} {p : Ptr}

/-- The nodes stay the same ones when one of those in the chains comes in hand. -/
theorem unlink_perm (hand l₁ l₂ free : List Ptr) (p : Ptr) :
    (p :: hand ++ (l₁ ++ l₂ ++ free)).Perm (hand ++ (l₁ ++ p :: l₂ ++ free)) := by
  have h : (p :: (l₁ ++ l₂)).Perm (l₁ ++ p :: l₂) := List.perm_middle.symm
  have hh : (p :: (hand ++ (l₁ ++ l₂ ++ free))).Perm (hand ++ p :: (l₁ ++ l₂ ++ free)) :=
    List.perm_middle.symm
  exact hh.trans ((h.append_right free).append_left hand)

/-- The chain of a live node is relinked around it, in the bucket `k`. -/
theorem InHand.relink (L : InHand c hand (l₁ ++ p :: l₂) free) {k : BitVec 16}
    (hk : c.bucketOf p = k) {mem' : Ptr → AllocNode} {header' : Option Ptr}
    (hpath : Path (fun q => (mem' q).next) header'
      (l₁.filter (c.bucketOf · = k) ++ l₂.filter (c.bucketOf · = k)))
    (hmem : ∀ q ∉ l₁.filter (c.bucketOf · = k), mem' q = c.allocCache.mCache q)
    (hfields : ∀ q, ∃ nx, mem' q = { c.allocCache.mCache q with next := nx }) :
    InHand { allocTable := Function.update c.allocTable k header'
             allocCache := { c.allocCache with mCache := mem' } } (p :: hand) (l₁ ++ l₂) free := by
  refine ⟨L.count, L.index, fun h => ?_, ?_, (unlink_perm hand l₁ l₂ free p).trans L.conserve,
    fun q hq => ?_⟩
  · rw [Layout.filter_bucketOf (c := c) fun q _ => by obtain ⟨nx, h⟩ := hfields q; simp only [h]]
    by_cases hh : h = k
    · subst hh
      simp only [Function.update_self, List.filter_append]
      exact hpath
    · have hpath := L.chain h
      rw [List.filter_append, List.filter_cons_of_neg (by simpa [hk] using Ne.symm hh),
        ← List.filter_append] at hpath
      simp only [Function.update_of_ne hh]
      -- the links that change are those of the bucket `k`
      refine hpath.congr fun q hq => ?_
      have hqh : c.bucketOf q = h := by simpa using (List.mem_filter.1 hq).2
      have hq₁ : q ∉ l₁.filter (c.bucketOf · = k) := by
        intro hm
        exact hh (hqh.symm.trans (by simpa using (List.mem_filter.1 hm).2))
      simp only [AllocPool.next, hmem q hq₁]
  · refine L.stack.congr fun q hq => ?_
    have hq₁ : q ∉ l₁.filter (c.bucketOf · = k) := by
      intro h
      have hnd := (List.nodup_append.1 L.nodup).2.1
      rw [List.append_assoc] at hnd
      exact List.disjoint_of_nodup_append hnd (List.mem_filter.1 h).1 (by simp [hq])
    simp only [AllocPool.next, hmem q hq₁]
  · obtain ⟨nx, h⟩ := hfields q
    simp only [h]
    exact L.ended q (by simp at hq ⊢; tauto)

/-- Unlinking takes a live node in hand. -/
theorem InHand.unlink (L : InHand c hand (l₁ ++ p :: l₂) free) {a : Word}
    (hl : ∀ x ∈ l₁, (c.allocCache.mCache x).addr ≠ a) (ha : (c.allocCache.mCache p).addr = a) :
    ∃ mem' header', removeAlloc c.allocCache.mCache (c.allocTable (allocHash a)) a =
        some (mem', header', some p) ∧
      InHand { allocTable := Function.update c.allocTable (allocHash a) header'
               allocCache := { c.allocCache with mCache := mem' } } (p :: hand) (l₁ ++ l₂) free ∧
      (∀ q ∉ l₁, mem' q = c.allocCache.mCache q) ∧
      ∀ q, ∃ nx, mem' q = { c.allocCache.mCache q with next := nx } := by
  have hb : c.bucketOf p = allocHash a := by rw [MemoryCache.bucketOf, ha]
  have hchain := L.chain (allocHash a)
  rw [List.filter_append, List.filter_cons_of_pos (by simpa using hb)] at hchain
  have hlen : (l₁.filter (c.bucketOf · = allocHash a) ++
      p :: l₂.filter (c.bucketOf · = allocHash a)).length ≤ allocCacheSize := by
    refine le_trans ?_ L.length_le
    simp only [List.length_append, List.length_cons]
    exact Nat.add_le_add (List.length_filter_le ..) (Nat.succ_le_succ (List.length_filter_le ..))
  obtain ⟨mem', header', e, hpath, hmem, hfields⟩ := Layout.removeAlloc_hit hchain
    (fun x hx => hl x (List.mem_filter.1 hx).1) ha hlen
  exact ⟨mem', header', e, L.relink hb hpath hmem hfields,
    fun q hq => hmem q fun h => hq (List.mem_filter.1 h).1, hfields⟩

end unlink

namespace Layout
variable {c : MemoryCache} {live free : List Ptr}

/-- **remove** frees the most recent live node with the address. -/
theorem remove_hit {l₁ l₂ : List Ptr} {p : Ptr} (L : Layout c (l₁ ++ p :: l₂) free) {a : Word}
    (hl : ∀ x ∈ l₁, (c.allocCache.mCache x).addr ≠ a) (ha : (c.allocCache.mCache p).addr = a) :
    ∃ c', c.remove a = some c' ∧ Layout c' (l₁ ++ l₂) (p :: free) ∧
      ∀ q ∈ l₁ ++ l₂, c'.recordAt q = c.recordAt q := by
  obtain ⟨mem', header', e, L₁, -, hfields⟩ := L.inHand.unlink hl ha
  have hne : c.allocTable (allocHash a) ≠ none := by
    intro h
    rw [h] at e
    simp [removeAlloc] at e
  refine ⟨_, by simp [MemoryCache.remove, hne, e], L₁.recycle.layout, fun q hq => ?_⟩
  obtain ⟨nx, h⟩ := hfields q
  simp only [MemoryCache.recordAt, AllocPool.recycle, 
    Function.update_of_ne (L₁.ne_of_mem List.mem_cons_self hq), h]
  rfl

end Layout

end Raphael
