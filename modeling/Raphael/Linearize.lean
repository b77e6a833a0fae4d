/-
  The calls of the record table are linearizable.

  The nodes of the pool are live, free or in the hand of exactly one call
  (`InHand`), and only the call that holds the lock changes a chain.  So what a
  call knows about its node, about the head of its bucket and about the chains
  it prints stays true while the others go on (`Pc.Stage`, `Stage.frame`).

  * `advance_spec`: one step of a call, on the store of the live records.
  * `Inv`: the calls in progress together; `step_inv` keeps it.
  * `linearizable`: the result for all runs; `go_enabled`: only the lock makes a
    call wait.
-/
import Raphael.Concurrent

namespace Raphael

namespace Concurrent

open Linked Linear

/-! ## What a call knows -/

/-- The node says what the call has to record. -/
structure Filled (c : MemoryCache) (x : Insertion) (p : Ptr) : Prop where
  addr : (c.allocCache.mCache p).addr = x.address
  size : (c.allocCache.mCache p).size = x.size.setWidth 32
  frames : (c.allocCache.mCache p).trace.frames = some x.backtrace.stored

theorem Filled.recordAt {c : MemoryCache} {x : Insertion} {p : Ptr} (h : Filled c x p) :
    c.recordAt p = x.record := by
  simp only [MemoryCache.recordAt, AllocNode.record, Insertion.record, h.addr, h.size, h.frames,
    Option.getD_some]

/-- What a call knows about the shared state, where `live` are the nodes in the
    chains. -/
def Pc.Stage (env : Symbols) (c : MemoryCache) (live : List Ptr) : Pc → Prop
  | setSize x p => (c.allocCache.mCache p).addr = x.address
  | setTrace x p => (c.allocCache.mCache p).addr = x.address ∧
      (c.allocCache.mCache p).size = x.size.setWidth 32
  | lockInsert x p | setNext x p => Filled c x p
  | link x p => Filled c x p ∧ c.allocCache.next p = c.allocTable (allocHash x.address)
  -- what is written, and what is still to come, is the report
  | scan buckets p out => ∃ l, Path c.allocCache.next p l ∧ (∀ q ∈ l, q ∈ live) ∧
      out ++ (l ++ buckets.flatMap fun h => live.filter (c.bucketOf · = h)).flatMap
        (fun q => (c.recordAt q).block env) = Store.report env (live.map c.recordAt)
  | _ => True

section stage
variable {env : Symbols} {c c' : MemoryCache} {live live' : List Ptr}

theorem report_eq : Store.report env (live.map c.recordAt) =
    (allBuckets.flatMap fun h => live.filter (c.bucketOf · = h)).flatMap
      fun q => (c.recordAt q).block env := by
  have hbucket : ∀ h, Store.bucket (live.map c.recordAt) h =
      (live.filter (c.bucketOf · = h)).map c.recordAt := by
    intro h
    rw [Store.bucket, List.filter_map]
    rfl
  simp only [Store.report, Store.inOrder, hbucket, List.flatMap_assoc, List.flatMap_map]

/-- What a call knows stays true if its node stays as it is and, with the lock,
    the chains do. -/
theorem Pc.Stage.frame {pc : Pc} (h : pc.Stage env c live)
    (hnode : ∀ p, pc.node = some p → c'.allocCache.mCache p = c.allocCache.mCache p)
    (hlock : pc.locked → c'.allocTable = c.allocTable ∧ live' = live ∧
      ∀ q ∈ live, c'.allocCache.mCache q = c.allocCache.mCache q) : pc.Stage env c' live' := by
  have hfilled : ∀ {x : Insertion} {p : Ptr}, c'.allocCache.mCache p = c.allocCache.mCache p →
      Filled c x p → Filled c' x p := by
    intro x p hp hf
    exact ⟨by rw [hp]; exact hf.addr, by rw [hp]; exact hf.size, by rw [hp]; exact hf.frames⟩
  cases pc with
  | setSize x p => exact (congrArg AllocNode.addr (hnode p rfl)).trans h
  | setTrace x p =>
    exact ⟨(congrArg AllocNode.addr (hnode p rfl)).trans h.1,
      (congrArg AllocNode.size (hnode p rfl)).trans h.2⟩
  | lockInsert x p | setNext x p => exact hfilled (hnode p rfl) h
  | link x p =>
    obtain ⟨htable, -, -⟩ := hlock rfl
    refine ⟨hfilled (hnode p rfl) h.1, ?_⟩
    rw [htable, ← h.2, AllocPool.next, AllocPool.next, hnode p rfl]
  | scan buckets p out =>
    obtain ⟨htable, rfl, hlive⟩ := hlock rfl
    obtain ⟨l, hpath, hsub, hout⟩ := h
    have hrec : ∀ q ∈ live', c'.recordAt q = c.recordAt q := by
      intro q hq
      rw [MemoryCache.recordAt, MemoryCache.recordAt, hlive q hq]
    refine ⟨l, hpath.congr fun q hq => ?_, hsub, ?_⟩
    · rw [AllocPool.next, AllocPool.next, hlive q (hsub q hq)]
    · have hfilter : ∀ k, live'.filter (c'.bucketOf · = k) = live'.filter (c.bucketOf · = k) :=
        fun k => Layout.filter_bucketOf (fun q hq => by rw [hlive q hq]) k
      simp only [hfilter]
      rw [List.map_congr_left hrec, ← hout]
      congr 1
      refine List.flatMap_congr fun q hq => ?_
      rw [hrec]
      rcases List.mem_append.1 hq with hq | hq
      · exact hsub q hq
      · obtain ⟨k, -, hq⟩ := List.mem_flatMap.1 hq
        exact List.mem_of_mem_filter hq
  | _ => trivial

end stage

/-! ## A step of a call -/

/-- The step `x` of the call `i` at `pc`, while other calls have the nodes
    `rest` in hand. -/
structure Advanced (env : Symbols) (i : ℕ) (c : MemoryCache) (owner : Option ℕ) (pc : Pc)
    (rest live : List Ptr) (x : Progress) (live' free' : List Ptr) : Prop where
  layout : InHand x.cache (x.pc.node.toList ++ rest) live' free'
  stage : x.pc.Stage env x.cache live'
  /-- the effect on the store of the live records -/
  effect : match x.effect with
    | none => live'.map x.cache.recordAt = live.map c.recordAt ∧ x.pc.phase = pc.phase
    | some (op, out) => next env (live.map c.recordAt) op out = some (live'.map x.cache.recordAt) ∧
        pc.phase = .inl op ∧ x.pc.phase = .inr out
  /-- the nodes of the others stay as they are -/
  others : ∀ q ∈ rest, x.cache.allocCache.mCache q = c.allocCache.mCache q
  /-- without the lock the chains do, too -/
  chains : pc.locked = false → x.cache.allocTable = c.allocTable ∧ live' = live ∧
    ∀ q ∈ live, x.cache.allocCache.mCache q = c.allocCache.mCache q
  /-- and with it what their nodes say -/
  records : ∀ q ∈ live, x.cache.recordAt q = c.recordAt q
  lock : (pc.locked ↔ owner = some i) →
    (x.pc.locked ↔ x.owner = some i) ∧ ∀ j ≠ i, x.owner = some j ↔ owner = some j

section steps
variable {env : Symbols} {i : ℕ} {c : MemoryCache} {owner owner' : Option ℕ} {pc pc' : Pc}
  {rest live free : List Ptr} {x : Progress}

/-- A step that only moves the call on, or takes effect without a change. -/
theorem advanced_same {e : Option (Op × Out)}
    (L : InHand c (pc'.node.toList ++ rest) live free) (hs : pc'.Stage env c live)
    (he : match e with
      | none => pc'.phase = pc.phase
      | some (op, out) => next env (live.map c.recordAt) op out = some (live.map c.recordAt) ∧
          pc.phase = .inl op ∧ pc'.phase = .inr out)
    (hl : (pc.locked ↔ owner = some i) →
      (pc'.locked ↔ owner' = some i) ∧ ∀ j ≠ i, owner' = some j ↔ owner = some j) :
    Advanced env i c owner pc rest live ⟨c, owner', pc', e⟩ live free where
  layout := L
  stage := hs
  effect := by
    rcases e with _ | ⟨op, out⟩
    · exact ⟨rfl, he⟩
    · exact he
  others _ _ := rfl
  chains _ := ⟨rfl, rfl, fun _ _ => rfl⟩
  records _ _ := rfl
  lock := hl

/-- A step that writes to the node in hand. -/
theorem advanced_write {p : Ptr} {n : AllocNode} (L : InHand c (p :: rest) live free)
    (hn : pc'.node = some p) (hs : pc'.Stage env (c.write p n) live)
    (hp : pc'.phase = pc.phase) (hl : pc'.locked = pc.locked) :
    Advanced env i c owner pc rest live ⟨c.write p n, owner, pc', none⟩ live free := by
  have hother : ∀ q, q ≠ p → (c.write p n).allocCache.mCache q = c.allocCache.mCache q :=
    fun q hq => Function.update_of_ne hq ..
  have hlive : ∀ q ∈ live, (c.write p n).allocCache.mCache q = c.allocCache.mCache q :=
    fun q hq => hother q (L.ne_of_mem List.mem_cons_self hq)
  have hrec : ∀ q ∈ live, (c.write p n).recordAt q = c.recordAt q := by
    intro q hq
    rw [MemoryCache.recordAt, hlive q hq]
    rfl
  refine ⟨?_, hs, ⟨List.map_congr_left hrec, hp⟩, fun q hq => hother q ?_,
    fun _ => ⟨rfl, rfl, hlive⟩, hrec, fun h => ⟨by rw [hl]; exact h, fun _ _ => Iff.rfl⟩⟩
  · simp only [hn]
    exact L.write List.mem_cons_self n
  · rintro rfl
    have hnd := L.nodup
    rw [List.cons_append, List.nodup_cons] at hnd
    exact hnd.1 (List.mem_append_left _ hq)

theorem advance_acquire (e : acquire i c owner pc' = some x)
    (L : InHand c (pc'.node.toList ++ rest) live free) (hs : pc'.Stage env c live)
    (hp : pc'.phase = pc.phase) (hl : pc'.locked = true) :
    Advanced env i c owner pc rest live x live free := by
  unfold acquire at e
  split_ifs at e with ho
  cases e
  refine advanced_same L hs hp fun _ => ⟨by simp [hl], fun j hj => ?_⟩
  rw [ho]
  constructor
  · intro h
    exact absurd (Option.some.inj h).symm hj
  · intro h
    cases h

/-- Giving the lock back. -/
theorem advance_release (hl : pc.locked = true) (hl' : pc'.locked = false)
    (h : pc.locked ↔ owner = some i) :
    (pc'.locked ↔ (none : Option ℕ) = some i) ∧
      ∀ j ≠ i, (none : Option ℕ) = some j ↔ owner = some j := by
  rw [h.1 hl]
  refine ⟨by simp [hl'], fun j hj => ?_⟩
  simp [hj.symm]

theorem advance_apply {y : Insertion} (L : InHand c rest live free)
    (e : (Pc.apply y).advance env i c owner = some x) :
    ∃ free', Advanced env i c owner (.apply y) rest live x live free' := by
  rcases L.apply_cases with ⟨pool, p, free', hp, hmem, L', -⟩ | ⟨hp, -⟩
  · simp only [Pc.advance, hp, Option.some.injEq] at e
    subst e
    have hrec : ∀ q ∈ live, MemoryCache.recordAt { c with allocCache := pool } q = c.recordAt q := by
      intro q _
      simp only [MemoryCache.recordAt, hmem]
    exact ⟨free', L', trivial, ⟨List.map_congr_left hrec, rfl⟩, fun q _ => congrFun hmem q,
      fun _ => ⟨rfl, rfl, fun q _ => congrFun hmem q⟩, hrec, fun h => ⟨h, fun _ _ => Iff.rfl⟩⟩
  · simp only [Pc.advance, hp, Option.some.injEq] at e
    subst e
    exact ⟨free, advanced_same L trivial ⟨rfl, rfl, rfl⟩ fun h => ⟨h, fun _ _ => Iff.rfl⟩⟩

theorem advance_link {y : Insertion} {p : Ptr} (L : InHand c (p :: rest) live free)
    (hs : (Pc.link y p).Stage env c live) (e : (Pc.link y p).advance env i c owner = some x) :
    Advanced env i c owner (.link y p) rest live x (p :: live) free := by
  obtain ⟨hf, hnext⟩ := hs
  have hlt : live.length < allocCacheSize := by
    have hlen := L.length_add
    have hidx := L.index
    simp only [List.length_cons] at hlen
    omega
  cases e
  refine ⟨L.link ?_ hnext ?_, trivial, ⟨?_, rfl, rfl⟩, fun _ _ => rfl, nofun, fun _ _ => rfl,
    fun h => ⟨h, fun _ _ => Iff.rfl⟩⟩
  · rw [MemoryCache.bucketOf, hf.addr]
  · rw [hf.frames]
    rfl
  · rw [next, if_pos (by simpa using hlt), List.map_cons, ← hf.recordAt]
    rfl

/-- No live node has an address that no record has. -/
theorem any_eq_false {a : Word} :
    (live.map c.recordAt).any (·.addr = a) = false ↔ ∀ q ∈ live, (c.allocCache.mCache q).addr ≠ a := by
  rw [List.any_eq_false]
  constructor
  · intro h q hq ha
    exact h _ (List.mem_map.2 ⟨q, hq, rfl⟩) (decide_eq_true ha)
  · intro h r hr
    obtain ⟨q, hq, rfl⟩ := List.mem_map.1 hr
    exact fun ha => h q hq (of_decide_eq_true ha)

theorem advance_test {a : Word} (L : InHand c rest live free)
    (e : (Pc.test a).advance env i c owner = some x) :
    Advanced env i c owner (.test a) rest live x live free := by
  simp only [Pc.advance] at e
  split_ifs at e with hnull
  · cases e
    refine advanced_same L trivial ⟨?_, rfl, rfl⟩ fun h => ⟨h, fun _ _ => Iff.rfl⟩
    have hchain := L.chain (allocHash a)
    rw [hnull, path_none, List.filter_eq_nil_iff] at hchain
    have hany : (live.map c.recordAt).any (·.addr = a) = false := by
      refine any_eq_false.2 fun q hq ha => hchain q hq ?_
      rw [MemoryCache.bucketOf, ha]
      exact decide_eq_true rfl
    rw [next, hany]
    rfl
  · cases e
    exact advanced_same L trivial rfl fun h => ⟨h, fun _ _ => Iff.rfl⟩

theorem advance_unlink {a : Word} (L : InHand c rest live free)
    (e : (Pc.unlink a).advance env i c owner = some x) :
    ∃ live', Advanced env i c owner (.unlink a) rest live x live' free := by
  simp only [Pc.advance] at e
  by_cases h : ∃ q ∈ live, (c.allocCache.mCache q).addr = a
  · obtain ⟨l₁, p, l₂, rfl, hl, hp⟩ := Refines.exists_first h
    obtain ⟨mem', header', he, L', hout, hfields⟩ := L.unlink hl hp
    rw [he] at e
    cases e
    have hrec : ∀ q, MemoryCache.recordAt
        { allocTable := Function.update c.allocTable (allocHash a) header'
          allocCache := { c.allocCache with mCache := mem' } } q = c.recordAt q := by
      intro q
      obtain ⟨nx, hq⟩ := hfields q
      simp only [MemoryCache.recordAt, hq]
      rfl
    refine ⟨l₁ ++ l₂, L', trivial, ⟨?_, rfl, rfl⟩, fun q hq => hout q fun hq₁ => ?_,
      fun h => Bool.noConfusion h, fun q _ => hrec q, fun h => ⟨h, fun _ _ => Iff.rfl⟩⟩
    · have hany : ((l₁ ++ p :: l₂).map c.recordAt).any (·.addr = a) = true :=
        List.any_eq_true.2 ⟨c.recordAt p, List.mem_map.2 ⟨p, by simp, rfl⟩, decide_eq_true hp⟩
      rw [next, if_pos hany, Refines.remove_map hl hp]
      exact congrArg some (List.map_congr_left fun q _ => (hrec q).symm)
    · exact L.notMem hq (List.mem_append_left _ (List.mem_append_left _ hq₁))
  · push Not at h
    have he := Layout.removeAlloc_miss (L.chain (allocHash a))
      (fun q hq => h q (List.mem_filter.1 hq).1) ((List.length_filter_le ..).trans L.length_le)
    rw [he] at e
    cases e
    have hsame : Function.update c.allocTable (allocHash a) (c.allocTable (allocHash a)) =
        c.allocTable := Function.update_eq_self ..
    simp only [hsame]
    refine ⟨live, advanced_same L trivial ⟨?_, rfl, rfl⟩ fun h => ⟨h, fun _ _ => Iff.rfl⟩⟩
    rw [next, any_eq_false.2 h]
    rfl

theorem advance_scan {buckets : List (BitVec 16)} {p : Option Ptr} {out : List Char}
    (L : InHand c rest live free) (hs : (Pc.scan buckets p out).Stage env c live)
    (e : (Pc.scan buckets p out).advance env i c owner = some x) :
    Advanced env i c owner (.scan buckets p out) rest live x live free := by
  obtain ⟨l, hpath, hsub, hout⟩ := hs
  cases p with
  | some p =>
    obtain ⟨l, rfl, hrest⟩ := path_some.1 hpath
    obtain ⟨pcs, hpcs⟩ := Option.isSome_iff_exists.1 (L.ended p (hsub p List.mem_cons_self))
    have hwrite : writeTrace env (c.allocCache.mCache p) = some ((c.recordAt p).block env) := by
      simp [writeTrace, Record.block, MemoryCache.recordAt, AllocNode.record, hpcs]
    simp only [Pc.advance, hwrite, Option.map_some, Option.some.injEq] at e
    subst e
    refine advanced_same L ⟨l, hrest, fun q hq => hsub q (List.mem_cons_of_mem _ hq), ?_⟩ rfl
      fun h => ⟨h, fun _ _ => Iff.rfl⟩
    rw [← hout, List.append_assoc]
    rfl
  | none =>
    obtain rfl := path_none.1 hpath
    cases buckets with
    | nil =>
      cases e
      refine advanced_same L trivial ⟨?_, rfl, rfl⟩ fun h => ⟨h, fun _ _ => Iff.rfl⟩
      rw [next, if_pos (by simpa using hout)]
    | cons h buckets =>
      cases e
      exact advanced_same L ⟨_, L.chain h, fun q hq => List.mem_of_mem_filter hq, hout⟩ rfl
        fun h => ⟨h, fun _ _ => Iff.rfl⟩

/-- Recycling writes to the node in hand only. -/
theorem advance_recycle {p : Ptr} (L : InHand c (p :: rest) live free) :
    Advanced env i c owner (.recycle p) rest live
      ⟨{ c with allocCache := c.allocCache.recycle p }, owner, .done .done, none⟩ live
      (p :: free) := by
  have W : Advanced env i c owner (.recycle p) rest live ⟨c.write p { c.allocCache.mCache p with
      next := c.allocCache.mStack }, owner, .recycle p, none⟩ live free :=
    advanced_write L rfl trivial rfl rfl
  exact ⟨L.recycle, trivial, W.effect, W.others, W.chains, W.records, fun h => ⟨h, fun _ _ => Iff.rfl⟩⟩

/-- **A step of a call.** -/
theorem advance_spec (L : InHand c (pc.node.toList ++ rest) live free)
    (hs : pc.Stage env c live) (e : pc.advance env i c owner = some x) :
    ∃ live' free', Advanced env i c owner pc rest live x live' free' := by
  cases pc with
  | apply y => exact ⟨live, advance_apply L e⟩
  | setAddr y p =>
    cases e
    exact ⟨live, free, advanced_write L rfl (by simp [Pc.Stage, MemoryCache.write]) rfl rfl⟩
  | setSize y p =>
    cases e
    refine ⟨live, free, advanced_write L rfl ⟨?_, ?_⟩ rfl rfl⟩
    · simpa [MemoryCache.write, Pc.Stage] using hs
    · simp [MemoryCache.write]
  | setTrace y p =>
    obtain ⟨t, ht, rfl⟩ := Option.map_eq_some_iff.1 e
    refine ⟨live, free, advanced_write L rfl ⟨?_, ?_, ?_⟩ rfl rfl⟩
    · simpa [MemoryCache.write] using hs.1
    · simpa [MemoryCache.write] using hs.2
    · simpa [MemoryCache.write] using Backtrace.frames_store ht
  | lockInsert y p => exact ⟨live, free, advance_acquire e L hs rfl rfl⟩
  | setNext y p =>
    cases e
    refine ⟨live, free, advanced_write L rfl ⟨⟨?_, ?_, ?_⟩, ?_⟩ rfl rfl⟩
    · simpa [MemoryCache.write] using hs.addr
    · simpa [MemoryCache.write] using hs.size
    · simpa [MemoryCache.write] using hs.frames
    · simp [MemoryCache.write, AllocPool.next]
  | link y p => exact ⟨_, free, advance_link L hs e⟩
  | test a => exact ⟨live, free, advance_test L e⟩
  | lockRemove a => exact ⟨live, free, advance_acquire e L trivial rfl rfl⟩
  | unlink a =>
    obtain ⟨live', h⟩ := advance_unlink L e
    exact ⟨live', free, h⟩
  | unlockRemove p =>
    cases e
    exact ⟨live, free, advanced_same L trivial rfl (advance_release rfl rfl)⟩
  | recycle p =>
    cases e
    exact ⟨live, p :: free, advance_recycle L⟩
  | lockPrint =>
    refine ⟨live, free, advance_acquire e L ⟨[], rfl, List.forall_mem_nil _, ?_⟩ rfl rfl⟩
    rw [report_eq, List.nil_append, List.nil_append]
  | scan buckets p out => exact ⟨live, free, advance_scan L hs e⟩
  | unlock out =>
    cases e
    exact ⟨live, free, advanced_same L trivial rfl (advance_release rfl rfl)⟩
  | done out => cases e

/-- Only the pool drops a record. -/
theorem advance_dropped {op : Op} (e : pc.advance env i c owner = some x)
    (hx : x.effect = some (op, .dropped)) : c.full = true := by
  cases pc with
  | apply y =>
    simp only [Pc.advance] at e
    split at e
    · cases e
      cases hx
    · next h =>
      rw [MemoryCache.full, h]
      rfl
  | setTrace y p =>
    obtain ⟨t, -, rfl⟩ := Option.map_eq_some_iff.1 e
    cases hx
  | lockInsert y p | lockRemove a | lockPrint =>
    simp only [Pc.advance, acquire, Option.ite_none_right_eq_some, Option.some.injEq] at e
    obtain ⟨-, rfl⟩ := e
    cases hx
  | test a =>
    simp only [Pc.advance] at e
    split_ifs at e <;> cases e <;> cases hx
  | unlink a =>
    obtain ⟨⟨mem, header, p⟩, -, rfl⟩ := Option.map_eq_some_iff.1 e
    cases p <;> cases hx
  | scan buckets p out =>
    cases p with
    | some p =>
      obtain ⟨text, -, rfl⟩ := Option.map_eq_some_iff.1 e
      cases hx
    | none => cases buckets <;> cases e <;> cases hx
  | done out => cases e
  | _ =>
    cases e
    cases hx

/-- **A call only waits for the lock**, if its trace fits. -/
theorem advance_isSome (L : InHand c rest live free) (hs : pc.Stage env c live) (hfit : pc.Fits)
    (hr : pc.returned = none) (hw : pc.waits → owner = none) :
    ∃ x, pc.advance env i c owner = some x := by
  cases pc with
  | apply y =>
    simp only [Pc.advance]
    split <;> exact ⟨_, rfl⟩
  | setTrace y p =>
    obtain ⟨t, ht⟩ := Option.isSome_iff_exists.1
      ((y.backtrace.store_isSome (c.allocCache.mCache p).trace).2 hfit)
    exact ⟨_, by rw [Pc.advance, ht]; rfl⟩
  | lockInsert y p | lockRemove a | lockPrint => exact ⟨_, if_pos (hw rfl)⟩
  | test a =>
    simp only [Pc.advance]
    split <;> exact ⟨_, rfl⟩
  | unlink a =>
    by_cases h : ∃ q ∈ live, (c.allocCache.mCache q).addr = a
    · obtain ⟨l₁, p, l₂, rfl, hl, hp⟩ := Refines.exists_first h
      obtain ⟨mem', header', he, -⟩ := L.unlink hl hp
      exact ⟨_, by rw [Pc.advance, he]; rfl⟩
    · push Not at h
      have he := Layout.removeAlloc_miss (L.chain (allocHash a))
        (fun q hq => h q (List.mem_filter.1 hq).1) ((List.length_filter_le ..).trans L.length_le)
      exact ⟨_, by rw [Pc.advance, he]; rfl⟩
  | scan buckets p out =>
    cases p with
    | some p =>
      obtain ⟨l, hpath, hsub, -⟩ := hs
      obtain ⟨l, rfl, -⟩ := path_some.1 hpath
      obtain ⟨pcs, hpcs⟩ := Option.isSome_iff_exists.1 (L.ended p (hsub p List.mem_cons_self))
      exact ⟨_, by rw [Pc.advance, writeTrace, hpcs]; rfl⟩
    | none => cases buckets <;> exact ⟨_, rfl⟩
  | done out => cases hr
  | _ => exact ⟨_, rfl⟩

end steps

/-! ## The calls together -/

/-- What the history tells about a call in progress. -/
def Known (h : List (Moment ℕ Op Out)) (i : ℕ) : Op ⊕ Out → Prop
  | .inl op => .call i op ∈ h ∧ ∀ op' out, .effect i op' out ∉ h
  | .inr out => ∃ op, .effect i op out ∈ h

/-- The shared state and the calls in progress, where `live` are the nodes in
    the chains and `free` those on the free stack. -/
structure Inv (env : Symbols) (s : State) (live free : List Ptr) : Prop where
  layout : InHand s.cache (hand s.calls) live free
  run : Run (next env) [] s.history (live.map s.cache.recordAt)
  ids : (s.calls.map Prod.fst).Nodup
  lt_made : ∀ x ∈ s.calls, x.1 < s.made
  past : ∀ e ∈ s.history, e.id < s.made
  stage : ∀ x ∈ s.calls, x.2.Stage env s.cache live
  lock : ∀ x ∈ s.calls, x.2.locked ↔ s.owner = some x.1
  holder : ∀ i, s.owner = some i → ∃ x ∈ s.calls, x.1 = i
  known : ∀ x ∈ s.calls, Known s.history x.1 x.2.phase

section calls
variable {env : Symbols} {s s' : State} {live free : List Ptr} {l₁ l₂ : List (ℕ × Pc)}
  {n i : ℕ} {pc : Pc}

/-- Moments of other calls. -/
theorem Known.cons {h : List (Moment ℕ Op Out)} {p : Op ⊕ Out} (k : Known h i p)
    {e : Moment ℕ Op Out} (he : e.id ≠ i) : Known (e :: h) i p := by
  rcases p with op | out
  · refine ⟨List.mem_cons_of_mem _ k.1, fun op' out hm => ?_⟩
    rcases List.mem_cons.1 hm with rfl | hm
    · exact he rfl
    · exact k.2 op' out hm
  · obtain ⟨op, ho⟩ := k
    exact ⟨op, List.mem_cons_of_mem _ ho⟩

theorem hand_perm (l₁ l₂ : List (ℕ × Pc)) (x : ℕ × Pc) :
    (hand (l₁ ++ x :: l₂)).Perm (x.2.node.toList ++ hand (l₁ ++ l₂)) := by
  have h : (l₁ ++ x :: l₂).Perm (x :: (l₁ ++ l₂)) := List.perm_middle
  refine (h.filterMap (·.2.node)).trans (List.Perm.of_eq ?_)
  rw [List.filterMap_cons]
  cases x.2.node <;> rfl

/-- The `n`-th call among the others. -/
theorem split_at {x : ℕ × Pc} {calls : List (ℕ × Pc)} (h : calls[n]? = some x) :
    ∃ l₁ l₂, calls = l₁ ++ x :: l₂ ∧ (∀ y, calls.set n y = l₁ ++ y :: l₂) ∧
      calls.eraseIdx n = l₁ ++ l₂ := by
  obtain ⟨hn, rfl⟩ := List.getElem?_eq_some_iff.1 h
  refine ⟨calls.take n, calls.drop (n + 1), ?_, fun y => ?_, ?_⟩
  · rw [List.getElem_cons_drop, List.take_append_drop]
  · rw [List.set_eq_take_append_cons_drop, if_pos hn]
  · rw [List.eraseIdx_eq_take_drop_succ]

theorem mem_middle {x y : ℕ × Pc} : y ∈ l₁ ++ x :: l₂ ↔ y = x ∨ y ∈ l₁ ++ l₂ := by
  simp only [List.mem_append, List.mem_cons]
  tauto

/-- The other calls have other numbers. -/
theorem ne_of_others (h : ((l₁ ++ (i, pc) :: l₂).map Prod.fst).Nodup) {y : ℕ × Pc}
    (hy : y ∈ l₁ ++ l₂) : y.1 ≠ i := by
  rw [List.map_append, List.map_cons, List.nodup_middle, ← List.map_append, List.nodup_cons] at h
  rintro rfl
  exact h.1 (List.mem_map.2 ⟨y, hy, rfl⟩)

theorem init_inv {c : MemoryCache} (hc : c.allocCache.mCount = allocCacheSize) :
    Inv env (State.init c) [] [] where
  layout := (Layout.reset hc).inHand
  run := .nil
  ids := List.nodup_nil
  lt_made := nofun
  past := nofun
  stage := nofun
  lock := nofun
  holder := nofun
  known := nofun

/-- **A call is made.** -/
theorem Inv.call (I : Inv env s live free) (r : Request) :
    Inv env { s with
      calls := (s.made, r.entry) :: s.calls
      made := s.made + 1
      history := .call s.made r.op :: s.history } live free := by
  have hnode : r.entry.node = none := by cases r <;> rfl
  have hlocked : r.entry.locked = false := by cases r <;> rfl
  have hphase : r.entry.phase = .inl r.op := by cases r <;> rfl
  have hstage : r.entry.Stage env s.cache live := by cases r <;> trivial
  have hpast : ∀ e ∈ s.history, e.id ≠ s.made := fun e he => Nat.ne_of_lt (I.past e he)
  refine ⟨?_, .call I.run hpast, ?_, ?_, ?_, ?_, ?_, ?_, ?_⟩
  · have hhand : hand ((s.made, r.entry) :: s.calls) = hand s.calls := by
      rw [hand, List.filterMap_cons, hnode]
      rfl
    rw [hhand]
    exact I.layout
  · refine List.nodup_cons.2 ⟨fun hm => ?_, I.ids⟩
    obtain ⟨x, hx, hxi⟩ := List.mem_map.1 hm
    exact absurd hxi (Nat.ne_of_lt (I.lt_made x hx))
  · exact List.forall_mem_cons.2
      ⟨Nat.lt_succ_self _, fun x hx => Nat.lt_succ_of_lt (I.lt_made x hx)⟩
  · exact List.forall_mem_cons.2
      ⟨Nat.lt_succ_self _, fun e he => Nat.lt_succ_of_lt (I.past e he)⟩
  · exact List.forall_mem_cons.2 ⟨hstage, I.stage⟩
  · refine List.forall_mem_cons.2 ⟨?_, I.lock⟩
    refine iff_of_false (by simp [hlocked]) fun ho => ?_
    obtain ⟨x, hx, hxi⟩ := I.holder s.made ho
    exact absurd hxi (Nat.ne_of_lt (I.lt_made x hx))
  · intro i hi
    obtain ⟨x, hx, hxi⟩ := I.holder i hi
    exact ⟨x, List.mem_cons_of_mem _ hx, hxi⟩
  · refine List.forall_mem_cons.2 ⟨?_, fun x hx => ?_⟩
    · rw [hphase]
      refine ⟨List.mem_cons_self, fun op out hm => ?_⟩
      rcases List.mem_cons.1 hm with hm | hm
      · cases hm
      · exact hpast _ hm rfl
    · exact (I.known x hx).cons (Nat.ne_of_gt (I.lt_made x hx))

/-- **A call returns.** -/
theorem Inv.ret (I : Inv env s live free) {out : Out} (hcalls : s.calls = l₁ ++ (i, .done out) :: l₂) :
    Inv env { s with calls := l₁ ++ l₂, history := .ret i out :: s.history } live free := by
  obtain ⟨cache, owner, calls, made, history⟩ := s
  obtain rfl := hcalls
  have hmem : ∀ {y}, y ∈ l₁ ++ l₂ → y ∈ l₁ ++ (i, Pc.done out) :: l₂ :=
    fun hy => mem_middle.2 (Or.inr hy)
  have hself : (i, Pc.done out) ∈ l₁ ++ (i, Pc.done out) :: l₂ := mem_middle.2 (Or.inl rfl)
  obtain ⟨op, hop⟩ := I.known _ hself
  refine ⟨I.layout.perm (hand_perm l₁ l₂ (i, .done out)).symm, .ret I.run hop, ?_, ?_, ?_, ?_, ?_,
    ?_, ?_⟩
  · have h := I.ids
    rw [List.map_append, List.map_cons, List.nodup_middle, ← List.map_append] at h
    exact (List.nodup_cons.1 h).2
  · exact fun y hy => I.lt_made y (hmem hy)
  · exact List.forall_mem_cons.2 ⟨I.lt_made _ hself, I.past⟩
  · exact fun y hy => I.stage y (hmem hy)
  · exact fun y hy => I.lock y (hmem hy)
  · intro j hj
    obtain ⟨y, hy, rfl⟩ := I.holder j hj
    rcases mem_middle.1 hy with rfl | hy
    · have hlocked := (I.lock _ hself).2 hj
      cases hlocked
    · exact ⟨y, hy, rfl⟩
  · exact fun y hy => (I.known y (hmem hy)).cons (Ne.symm (ne_of_others I.ids hy))

theorem mem_hand {calls : List (ℕ × Pc)} {y : ℕ × Pc} (hy : y ∈ calls) {p : Ptr}
    (hp : y.2.node = some p) : p ∈ hand calls := List.mem_filterMap.2 ⟨y, hy, hp⟩

theorem put_history_none {x : Progress} (he : x.effect = none) :
    (s.put n i x).history = s.history := by
  rw [State.put, he]

theorem put_history_some {x : Progress} {op : Op} {out : Out} (he : x.effect = some (op, out)) :
    (s.put n i x).history = .effect i op out :: s.history := by
  rw [State.put, he]

/-- The history of a call that goes on grows by its effect, if by any. -/
theorem Inv.history (I : Inv env s live free) (n : ℕ) (hself : (i, pc) ∈ s.calls) {rest : List Ptr}
    {x : Progress} {live' free' : List Ptr}
    (A : Advanced env i s.cache s.owner pc rest live x live' free') :
    Run (next env) [] (s.put n i x).history (live'.map x.cache.recordAt) ∧
      (∀ e ∈ (s.put n i x).history, e.id < s.made) ∧
      (∀ y ∈ s.calls, y.1 ≠ i → Known (s.put n i x).history y.1 y.2.phase) ∧
      Known (s.put n i x).history i x.pc.phase := by
  have heffect := A.effect
  have hknown := I.known _ hself
  rcases he : x.effect with _ | ⟨op, out⟩
  · rw [he] at heffect
    rw [put_history_none he, heffect.1, heffect.2]
    exact ⟨I.run, I.past, fun y hy _ => I.known y hy, hknown⟩
  · rw [he] at heffect
    obtain ⟨hnext, hpend, hout⟩ := heffect
    rw [hpend] at hknown
    rw [put_history_some he, hout]
    refine ⟨.effect I.run hknown.1 hknown.2 hnext, ?_, fun y hy hne => ?_, op, List.mem_cons_self⟩
    · exact List.forall_mem_cons.2 ⟨I.lt_made _ hself, I.past⟩
    · exact (I.known y hy).cons (Ne.symm hne)

/-- **A call goes on.** -/
theorem Inv.advance (I : Inv env s live free) (hcalls : s.calls = l₁ ++ (i, pc) :: l₂)
    (hset : ∀ y, s.calls.set n y = l₁ ++ y :: l₂) {x : Progress}
    (e : pc.advance env i s.cache s.owner = some x) :
    (∃ live' free', Inv env (s.put n i x) live' free') ∧
      ∀ q ∈ live, x.cache.recordAt q = s.cache.recordAt q := by
  have hself : (i, pc) ∈ s.calls := by rw [hcalls]; exact mem_middle.2 (Or.inl rfl)
  have hmem : ∀ {y}, y ∈ l₁ ++ l₂ → y ∈ s.calls :=
    fun hy => by rw [hcalls]; exact mem_middle.2 (Or.inr hy)
  have hne : ∀ {y}, y ∈ l₁ ++ l₂ → y.1 ≠ i := fun hy => ne_of_others (hcalls ▸ I.ids) hy
  have hlock := I.lock _ hself
  have L : InHand s.cache (pc.node.toList ++ hand (l₁ ++ l₂)) live free := by
    refine I.layout.perm ?_
    rw [hcalls]
    exact (hand_perm l₁ l₂ (i, pc)).symm
  obtain ⟨live', free', A⟩ := advance_spec L (I.stage _ hself) e
  refine ⟨⟨live', free', ?_⟩, A.records⟩
  obtain ⟨hlock', hothers⟩ := A.lock hlock
  obtain ⟨hrun, hpast, hknown, hself'⟩ := I.history n hself A
  have hput : (s.put n i x).calls = l₁ ++ (i, x.pc) :: l₂ := hset (i, x.pc)
  have hall : ∀ {P : ℕ × Pc → Prop}, P (i, x.pc) → (∀ y ∈ l₁ ++ l₂, P y) →
      ∀ y ∈ (s.put n i x).calls, P y := by
    intro P h₁ h₂ y hy
    rw [hput] at hy
    rcases mem_middle.1 hy with rfl | hy
    · exact h₁
    · exact h₂ y hy
  refine ⟨?_, hrun, ?_, ?_, hpast, ?_, ?_, ?_, ?_⟩
  · rw [hput]
    exact A.layout.perm (hand_perm l₁ l₂ (i, x.pc))
  · have h := I.ids
    rw [hcalls, List.map_append, List.map_cons] at h
    rw [hput, List.map_append, List.map_cons]
    exact h
  · have hlt : i < s.made := I.lt_made _ hself
    exact hall hlt fun y hy => I.lt_made y (hmem hy)
  · refine hall A.stage fun y hy => (I.stage y (hmem hy)).frame (fun p hp => ?_) fun hl => ?_
    · exact A.others p (mem_hand hy hp)
    · -- two calls do not hold the lock
      refine A.chains (Bool.eq_false_iff.2 fun hpc => hne hy ?_)
      exact Option.some.inj (((I.lock y (hmem hy)).1 hl).symm.trans (hlock.1 hpc))
  · refine hall hlock' fun y hy => ?_
    exact (I.lock y (hmem hy)).trans (hothers y.1 (hne hy)).symm
  · intro j hj
    by_cases hji : j = i
    · exact ⟨(i, x.pc), by rw [hput]; exact mem_middle.2 (Or.inl rfl), hji.symm⟩
    · obtain ⟨y, hy, rfl⟩ := I.holder j ((hothers j hji).1 hj)
      rw [hcalls] at hy
      rcases mem_middle.1 hy with rfl | hy
      · exact absurd rfl hji
      · exact ⟨y, by rw [hput]; exact mem_middle.2 (Or.inr hy), rfl⟩
  · exact hall hself' fun y hy => hknown y (hmem hy) (hne hy)

/-- **A step** keeps the calls in order, and what the nodes in the chains say. -/
theorem step_inv (I : Inv env s live free) {l : Label} (e : s.step env l = some s') :
    (∃ live' free', Inv env s' live' free') ∧
      ∀ q ∈ live, s'.cache.recordAt q = s.cache.recordAt q := by
  cases l with
  | call r =>
    cases e
    exact ⟨⟨live, free, I.call r⟩, fun _ _ => rfl⟩
  | go n =>
    obtain ⟨⟨i, pc⟩, hx, e⟩ := Option.bind_eq_some_iff.1 e
    obtain ⟨l₁, l₂, hcalls, hset, herase⟩ := split_at hx
    dsimp only at e
    split at e
    · next out hout =>
      cases e
      obtain rfl : pc = .done out := by
        cases pc <;> simp only [Pc.returned, reduceCtorEq, Option.some.injEq] at hout
        rw [hout]
      rw [herase]
      exact ⟨⟨live, free, I.ret hcalls⟩, fun _ _ => rfl⟩
    · obtain ⟨x, hx, rfl⟩ := Option.map_eq_some_iff.1 e
      exact I.advance hcalls hset hx

theorem step_dropped {l : Label} {op : Op} (e : s.step env l = some s')
    (h : s'.history = .effect i op .dropped :: s.history) : s.cache.full = true := by
  cases l with
  | call r =>
    cases e
    cases List.cons.inj h with
    | intro h _ => cases h
  | go n =>
    obtain ⟨⟨j, pc⟩, hx, e⟩ := Option.bind_eq_some_iff.1 e
    dsimp only at e
    split at e
    · cases e
      cases List.cons.inj h with
      | intro h _ => cases h
    · obtain ⟨x, hx, rfl⟩ := Option.map_eq_some_iff.1 e
      rcases he : x.effect with _ | ⟨op', out⟩
      · rw [put_history_none he] at h
        exact absurd h (List.cons_ne_self _ _).symm
      · rw [put_history_some he] at h
        cases (List.cons.inj h).1
        exact advance_dropped hx he

theorem run_inv {c : MemoryCache} (hc : c.allocCache.mCount = allocCacheSize) {ls : List Label}
    (h : Lts.run (State.step env) (State.init c) ls = some s) :
    ∃ live free, Inv env s live free := by
  have hall : Lts.Along (State.step env) (fun _ _ => True) (State.init c) ls :=
    Lts.Along.of_forall (fun _ _ => trivial) _
  have hstep : ∀ s l s', (∃ live free, Inv env s live free) → True →
      s.step env l = some s' → ∃ live free, Inv env s' live free := by
    rintro s l s' ⟨live, free, I⟩ - e
    exact (step_inv I e).1
  exact Lts.run_inv hstep ⟨[], [], init_inv hc⟩ hall h

theorem locked_waits {pc : Pc} (h : pc.locked = true) : pc.waits = false := by
  cases pc <;> first | rfl | cases h

/-- A call with the lock, or with a free one, goes on, if its trace fits. -/
theorem go_enabled {c : MemoryCache} (hc : c.allocCache.mCount = allocCacheSize) {ls : List Label}
    (h : Lts.run (State.step env) (State.init c) ls = some s) {x : ℕ × Pc}
    (hx : s.calls[n]? = some x) (hfit : x.2.Fits) (hw : x.2.waits → s.owner = none) :
    ∃ s', s.step env (.go n) = some s' := by
  obtain ⟨live, free, I⟩ := run_inv hc h
  obtain ⟨i, pc⟩ := x
  rw [State.step, hx, Option.bind_some]
  dsimp only
  cases hr : pc.returned with
  | some out => exact ⟨_, rfl⟩
  | none =>
    obtain ⟨y, hy⟩ := @advance_isSome env i s.cache s.owner pc _ live free I.layout
      (I.stage _ (List.mem_of_getElem? hx)) hfit hr hw
    exact ⟨s.put n i y, by rw [hy]; rfl⟩

/-- **The calls never wait for each other forever**: one of them goes on, if their traces
    fit. -/
theorem never_stuck {c : MemoryCache} (hc : c.allocCache.mCount = allocCacheSize)
    {ls : List Label} (h : Lts.run (State.step env) (State.init c) ls = some s)
    (hfit : ∀ x ∈ s.calls, x.2.Fits) (hne : s.calls ≠ []) : ∃ n s', s.step env (.go n) = some s' := by
  obtain ⟨live, free, I⟩ := run_inv hc h
  cases ho : s.owner with
  | none =>
    obtain ⟨x, calls, hcalls⟩ := List.exists_cons_of_ne_nil hne
    have hx : x.2.Fits := hfit x (by rw [hcalls]; exact List.mem_cons_self)
    exact ⟨0, go_enabled hc h (by rw [hcalls]; rfl) hx fun _ => ho⟩
  | some i =>
    obtain ⟨x, hx, hxi⟩ := I.holder i ho
    have hlocked : x.2.locked = true := (I.lock x hx).2 (by rw [ho, hxi])
    obtain ⟨n, hn⟩ := List.mem_iff_getElem?.1 hx
    refine ⟨n, go_enabled hc h hn (hfit x hx) fun hw => ?_⟩
    rw [locked_waits hlocked] at hw
    cases hw

/-- **The calls are linearizable.**  After every run the calls that took effect,
    one after another, account for the history and lead to the store that the
    table holds.  A step drops a record only if the records and the nodes in
    hand fill the pool.  A node in hand is in no chain and in no other hand, and
    no step changes what a node in a chain says. -/
theorem linearizable {c : MemoryCache} (hc : c.allocCache.mCount = allocCacheSize)
    {ls : List Label} (h : Lts.run (State.step env) (State.init c) ls = some s) :
    ∃ st : Store, Linearization (next env) [] s.history (effects s.history) st ∧
      (∀ k, s.cache.bucket k = st.bucket k) ∧
      (∀ l s' i op, s.step env l = some s' → s'.history = .effect i op .dropped :: s.history →
        st.length + (hand s.calls).length = allocCacheSize) ∧
      ((hand s.calls).Nodup ∧ ∀ p ∈ hand s.calls, ∀ k, p ∉ s.cache.chain k) ∧
      ∀ l s', s.step env l = some s' →
        ∀ k, ∀ p ∈ s.cache.chain k, s'.cache.recordAt p = s.cache.recordAt p := by
  obtain ⟨live, free, I⟩ := run_inv hc h
  have L := I.layout
  have hchain : ∀ {k p}, p ∈ s.cache.chain k → p ∈ live := by
    intro k p hp
    rw [L.chain_eq] at hp
    exact List.mem_of_mem_filter hp
  refine ⟨live.map s.cache.recordAt, I.run.linearization, L.bucket_eq, ?_, ⟨?_, ?_⟩, ?_⟩
  · intro l s' i op e hdrop
    rw [List.length_map]
    exact L.full_iff.1 (step_dropped e hdrop)
  · exact (List.nodup_append.1 L.nodup).1
  · intro p hp k hk
    exact L.notMem hp (List.mem_append_left _ (hchain hk))
  · intro l s' e k p hp
    exact (step_inv I e).2 p (hchain hp)

end calls

/-! ## Two threads -/

/-- No address is resolved. -/
def unresolved : Symbols := ⟨fun _ => none, fun _ => none⟩

def sample : Insertion := ⟨0x1000, 100, ⟨4, fun _ => 7⟩⟩

/-- A remove looks at the bucket while an insert fills its node. -/
def insertRemove : List Label :=
  [.call (.insert sample), .go 0, .go 0, .call (.remove 0x1000), .go 0, .go 0] ++
    List.replicate 7 (.go 0)

theorem linearizable_insertRemove : ∃ s st, Lts.run (State.step unresolved)
    (State.init .blank) insertRemove = some s ∧ s.calls = [] ∧
      Linearization (next unresolved) [] s.history
        [(0, .insert sample.record, .done), (1, .remove 0x1000, .absent)] st ∧
      ∀ k, s.cache.bucket k = st.bucket k := by
  have hrun : ((Lts.run (State.step unresolved) (State.init .blank) insertRemove).map
      fun s => (s.calls.length, effects s.history)) =
        some (0, [(0, .insert sample.record, .done), (1, .remove 0x1000, .absent)]) := by
    decide +kernel
  obtain ⟨s, e, hs⟩ := Option.map_eq_some_iff.1 hrun
  obtain ⟨hcalls, heffects⟩ := Prod.mk.inj hs
  obtain ⟨st, hlin, htable, -⟩ := linearizable rfl e
  rw [heffects] at hlin
  exact ⟨s, st, e, List.length_eq_zero_iff.1 hcalls, hlin, htable⟩

end Concurrent

end Raphael
