/-
  The stacks of threads and their records (HookProxy.h).

  The runtime maps the stack of a thread through the proxies, or the program
  supplies one in memory that it obtained itself.  `pthread_exit_proxy` drops the
  record at the base of the stack, whoever mapped it, before the thread ends.
  The runtime unmaps only its own stacks: that of a detached thread behind the
  exit, where no proxy sees it, that of another one through `munmap_proxy` when
  the thread is joined.

  * `Kept`: every live area that was recorded has its record.
  * `stacks_iff`: all records of live areas are kept, and an exit drops only that
    of the area it releases, iff a thread that exits at the base of a recorded
    area is always detached and on a stack of the runtime.
-/
import Raphael.Exec
import Raphael.Store

namespace Raphael

/-- The call only obtains memory. -/
def Call.allocates : Call → Bool
  | malloc _ | calloc .. | memalign .. | mmap .. | mmap64 .. => true
  | realloc .. | free _ | munmap .. | pthreadExit _ => false

namespace Stacks

/-! ## Areas and threads -/

/-- A live area of memory. -/
structure Area where
  /-- the call that obtained it -/
  call : Call
  backtrace : Backtrace
  /-- the thread whose stack the runtime mapped here -/
  owner : Option ℕ
  /-- the call inserted a record -/
  recorded : Bool

/-- The live areas, by their addresses. -/
abbrev Areas := Word → Option Area

/-- The record of the area at `a`. -/
def Area.record (a : Word) (x : Area) : Record :=
  ⟨a, x.call.size.setWidth 32, x.backtrace.stored⟩

/-- A thread that was neither joined nor has ended detached. -/
structure Thread where
  /-- what `pthread_getattr_np` reports as `stack_base` -/
  base : Word
  /-- the runtime mapped the stack -/
  own : Bool
  detached : Bool
  exited : Bool

structure State where
  cache : MemoryCache
  areas : Areas
  threads : ℕ → Option Thread

/-- Nothing is recorded, and nothing is live. -/
def init (c : MemoryCache) : State := ⟨c.reset, fun _ => none, fun _ => none⟩

/-! ## Calls of the proxies -/

/-- No observer. -/
def observe : Event → Unit → Unit := fun _ γ => γ

/-- What a call does to the table. -/
def callProxy (g : Configs) (c : Call) (ans : Answers) (cache : MemoryCache) :
    Option MemoryCache :=
  (exec g observe (.leaf c ans) ⟨cache, false, ()⟩).map Seq.cache

/-- Run a proxy until it calls `pthread_exit`. -/
def untilExit (g : Configs) (ans : Answers) : Hook Word → Seq Unit → Option (Seq Unit)
  | .ret _, _ => none
  | .op (.origin (.pthreadExit _)) _, s => some s
  | .op o k, s =>
    (Seq.perform g observe (.pthreadExit 0) ans some o s).bind fun x => untilExit g ans (k x.2) x.1

/-- What `pthread_exit_proxy` does to the table, on a stack at `base`. -/
def exitProxy (g : Configs) (value base : Word) (cache : MemoryCache) : Option MemoryCache :=
  (untilExit g { Answers.of 0 with stackBase := some base } (proxy (.pthreadExit value))
    ⟨cache, false, ()⟩).map Seq.cache

namespace State

/-- A call obtains an area for the program, or as the stack of `owner`. -/
def alloc (g : Configs) (s : State) (owner : Option ℕ) (c : Call) (ans : Answers) :
    Option State :=
  (callProxy g c ans s.cache).bind fun cache =>
    (returned s.areas c ans.result
      ⟨c, ans.backtrace, owner, c.tracked g false && !s.cache.full⟩).map fun areas =>
        { s with cache := cache, areas := areas }

/-- A call releases an area. -/
def release (g : Configs) (s : State) (c : Call) (ans : Answers) : Option State :=
  (callProxy g c ans s.cache).map fun cache =>
    { s with cache := cache, areas := kept s.areas c ans.result }

def setThread (s : State) (t : ℕ) (th : Option Thread) : State :=
  { s with threads := Function.update s.threads t th }

/-- `pthread_exit` of the thread `t`: with a detached one the runtime unmaps a
    stack of its own. -/
def exit (g : Configs) (s : State) (t : ℕ) (th : Thread) (value : Word) : Option State :=
  (exitProxy g value th.base s.cache).map fun cache =>
    { cache := cache
      areas := if th.own && th.detached then Function.update s.areas th.base none else s.areas
      threads := Function.update s.threads t
        (if th.detached then none else some { th with exited := true }) }

/-- The runtime drops a thread that has exited, and unmaps a stack of its own. -/
def reap (g : Configs) (s : State) (t : ℕ) (th : Thread) : Option State :=
  if th.own then
    (s.areas th.base).bind fun x =>
      ((s.release g (.munmap th.base x.call.size) (.of 0)).map (setThread · t none))
  else some (s.setThread t none)

end State

/-! ## Steps -/

/-- The program may release an area by this call: a whole one, the way it was
    obtained, and none of the runtime.  A thread may still run on it. -/
def releases (areas : Areas) (c : Call) (r : Word) : Bool :=
  match c with
  | .free a => (areas a).any fun x => x.owner.isNone && !x.call.isMap
  | .munmap a n => r = 0 && (areas a).any fun x => x.owner.isNone && x.call.isMap && x.call.size = n
  | _ => false

/-- The program may supply a stack at `base` in its area at `a`. -/
def supplies (areas : Areas) (a base : Word) : Bool :=
  (areas a).any fun x => x.owner.isNone && a ≤ base && base.toNat < a.toNat + x.call.bytes

inductive Action
  /-- the program obtains memory, or fails to -/
  | alloc (c : Call) (ans : Answers)
  /-- the program releases memory -/
  | release (c : Call) (ans : Answers)
  /-- the runtime maps a stack by `c` and starts the thread `t` -/
  | create (t : ℕ) (c : Call) (ans : Answers) (detached : Bool)
  /-- the thread `t` is started on a stack that the program supplies -/
  | createOn (t : ℕ) (a base : Word) (detached : Bool)
  | exit (t : ℕ) (value : Word)
  | join (t : ℕ)
  | detach (t : ℕ)

def step (g : Configs) (s : State) : Action → Option State
  | .alloc c ans => if c.allocates then s.alloc g none c ans else none
  | .release c ans => if releases s.areas c ans.result then s.release g c ans else none
  | .create t c ans detached =>
    if (s.threads t).isNone ∧ c.isMap ∧ c.obtains ans.result then
      (s.alloc g (some t) c ans).map fun s => s.setThread t (some ⟨ans.result, true, detached, false⟩)
    else none
  | .createOn t a base detached =>
    if (s.threads t).isNone ∧ supplies s.areas a base then
      some (s.setThread t (some ⟨base, false, detached, false⟩))
    else none
  | .exit t value =>
    (s.threads t).bind fun th => if th.exited then none else s.exit g t th value
  | .join t => (s.threads t).bind fun th => if th.exited then s.reap g t th else none
  -- a thread that has exited is joined instead
  | .detach t =>
    (s.threads t).bind fun th =>
      if th.exited then s.reap g t th else some (s.setThread t (some { th with detached := true }))

/-! ## The law and its condition -/

/-- Every live area that was recorded has its record. -/
def Kept (cache : MemoryCache) (areas : Areas) : Prop :=
  ∀ a x, areas a = some x → x.recorded → x.record a ∈ cache.held a

/-- An exit changes the records of no area but the one it releases. -/
def DropsReleased (g : Configs) (s : State) (l : Action) : Prop :=
  ∀ t value s', l = .exit t value → step g s l = some s' →
    ∀ a, s'.cache.held a ≠ s.cache.held a → (s.areas a).isSome ∧ s'.areas a = none

/-- The law, for a run: records of live areas are kept, and an exit drops the
    record only of what it releases. -/
def RecordsKept (g : Configs) (s : State) (ls : List Action) : Prop :=
  (∀ ls₁ s₁, ls₁ <+: ls → Lts.run (step g) s ls₁ = some s₁ → Kept s₁.cache s₁.areas) ∧
    Lts.Along (step g) (DropsReleased g) s ls

/-- A thread that exits takes the runtime's stack along, or no area that was
    recorded starts at the base of its stack. -/
def Frees (s : State) : Action → Prop
  | .exit t _ => ∀ th, s.threads t = some th → (th.own ∧ th.detached) ∨
      ∀ x, s.areas th.base = some x → x.recorded = false
  | _ => True

/-! ## What the calls do to the table -/

section calls
variable {g : Configs} {c : Call} {ans : Answers} {cache : MemoryCache} {areas : Areas} {r : Word}

theorem callProxy_eq (hc : ∀ v, c ≠ .pthreadExit v) : callProxy g c ans cache =
    (c.accesses g ans.backtrace ans.result).foldlM Act.run cache := exec_leaf hc rfl

/-- `pthread_exit_proxy` drops the record at the base of the stack. -/
theorem exitProxy_eq (hv : g.isVss) (value base : Word) :
    exitProxy g value base cache = cache.remove base := by
  unfold exitProxy
  simp only [proxy, pthreadExitProxy, Hook.test, Hook.stackBase, Hook.setGuard, Hook.remove,
    Hook.origin, Prog.op_bind, Prog.ret_bind, untilExit, Seq.perform, Seq.note, Option.bind_some, hv,
    if_true]
  cases cache.remove base <;> rfl

theorem allocates_of_isMap (hc : c.isMap) : c.allocates := by
  cases c with
  | mmap | mmap64 => rfl
  | _ => cases hc

theorem released_alloc (hc : c.allocates) : c.released r = none := by
  cases c with
  | malloc | calloc | memalign | mmap | mmap64 => rfl
  | _ => cases hc

theorem accesses_alloc (hc : c.allocates) (bt : Backtrace) : c.accesses g bt r =
    if c.tracked g false && c.obtains r then [.insert r c.size bt] else [] := by
  unfold Call.accesses
  cases c with
  | malloc | calloc | memalign | mmap | mmap64 =>
    simp only [Call.acts, Call.drops, Call.records, Call.obtains, Option.map_none,
      Option.toList_none, List.nil_append]
    cases Call.tracked g false _ <;> simp [Bool.cond_decide]
  | _ => cases hc

theorem accesses_munmap (hv : g.isVss) {a : Word} (ha : a ≠ 0) (n : Word) (bt : Backtrace) :
    (Call.munmap a n).accesses g bt 0 = [.remove a] := by
  rw [Call.accesses, if_pos (by simpa [Call.tracked, hv] using ha)]
  rfl

theorem accesses_free (hv : g.isVss) {a : Word} (ha : a ≠ 0) (bt : Backtrace) :
    (Call.free a).accesses g bt r = [.remove a] := by
  rw [Call.accesses, if_pos (by simpa [Call.tracked, hv] using ha)]
  rfl

/-- Nothing that is live is at NULL. -/
theorem ne_null (h0 : areas 0 = none) {a : Word} {x : Area} (hx : areas a = some x) : a ≠ 0 := by
  rintro rfl
  rw [h0] at hx
  cases hx

/-- What a call of the program releases is an area of the program, and its record
    is dropped. -/
theorem releases_spec (hv : g.isVss) (h0 : areas 0 = none) (h : releases areas c r)
    (bt : Backtrace) : ∃ a x, areas a = some x ∧ x.owner = none ∧ c.released r = some a ∧
      c.accesses g bt r = [.remove a] := by
  cases c with
  | free a =>
    obtain ⟨x, hx, hown⟩ := (Option.any_eq_true _ _).1 h
    simp only [Bool.and_eq_true, Option.isNone_iff_eq_none] at hown
    exact ⟨a, x, hx, hown.1, rfl, accesses_free hv (ne_null h0 hx) bt⟩
  | munmap a n =>
    simp only [releases, Bool.and_eq_true, decide_eq_true_eq] at h
    obtain ⟨rfl, h⟩ := h
    obtain ⟨x, hx, hown⟩ := (Option.any_eq_true _ _).1 h
    simp only [Bool.and_eq_true, Option.isNone_iff_eq_none] at hown
    exact ⟨a, x, hx, hown.1.1, rfl, accesses_munmap hv (ne_null h0 hx) n bt⟩
  | _ => cases h

end calls

/-! ## The table and the areas -/

/-- What holds of the table between calls: the only record of an address, if any,
    is that of the area there. -/
structure Sound (cache : MemoryCache) (areas : Areas) : Prop where
  wf : cache.Wf
  null : areas 0 = none
  held : ∀ a, cache.held a = [] ∨
    ∃ x, areas a = some x ∧ x.recorded ∧ cache.held a = [x.record a]

section table
variable {g : Configs} {c : Call} {ans : Answers} {cache cache' : MemoryCache}
  {areas areas' : Areas} {a : Word} {owner : Option ℕ}

theorem Sound.null_update (h : Sound cache areas) (a : Word) :
    Function.update areas a none 0 = none := by
  by_cases h0 : 0 = a
  · subst h0
    exact Function.update_self ..
  · rw [Function.update_of_ne h0]
    exact h.null

/-- Where only one address changes, the rest stays as it is. -/
theorem Sound.change (h : Sound cache areas) (hwf : cache'.Wf) (hnull : areas' 0 = none)
    (hcache : ∀ b, b ≠ a → cache'.held b = cache.held b) (hareas : ∀ b, b ≠ a → areas' b = areas b)
    (hheld : cache'.held a = [] ∨
      ∃ x, areas' a = some x ∧ x.recorded ∧ cache'.held a = [x.record a]) :
    Sound cache' areas' ∧ (Kept cache areas → (Kept cache' areas' ↔
      ∀ x, areas' a = some x → x.recorded → x.record a ∈ cache'.held a)) := by
  refine ⟨⟨hwf, hnull, ?_⟩, ?_⟩
  · intro b
    by_cases hb : b = a
    · subst hb
      exact hheld
    · rw [hcache b hb, hareas b hb]
      exact h.held b
  · intro hk
    refine ⟨fun h => h a, ?_⟩
    intro hat b x hx hrec
    by_cases hb : b = a
    · subst hb
      exact hat x hx hrec
    · rw [hcache b hb]
      rw [hareas b hb] at hx
      exact hk b x hx hrec

/-- **Dropping** the record of an address leaves none there. -/
theorem Sound.remove (h : Sound cache areas) (e : cache.remove a = some cache')
    (hnull : areas' 0 = none) (hareas : ∀ b, b ≠ a → areas' b = areas b) :
    Sound cache' areas' ∧ (Kept cache areas →
      (Kept cache' areas' ↔ ∀ x, areas' a = some x → x.recorded = false)) := by
  obtain ⟨hwf, hheld⟩ := h.wf.held_remove e
  have hnil : cache'.held a = [] := by
    rw [hheld a, if_pos rfl]
    rcases h.held a with hr | ⟨x, -, -, hr⟩ <;> rw [hr] <;> rfl
  have hother : ∀ b, b ≠ a → cache'.held b = cache.held b :=
    fun b hb => by rw [hheld b, if_neg (Ne.symm hb)]
  obtain ⟨hs, hk⟩ := h.change hwf hnull hother hareas (Or.inl hnil)
  refine ⟨hs, ?_⟩
  intro hkept
  rw [hk hkept, hnil]
  refine forall₂_congr fun x _ => ?_
  rw [Bool.eq_false_iff]
  simp

/-- A call that obtains memory inserts a record, if it is tracked and the pool has
    room, and leaves the table as it is otherwise. -/
theorem held_alloc (h : cache.Wf) (hc : c.allocates)
    (e : callProxy g c ans cache = some cache') : cache'.Wf ∧ ∀ b, cache'.held b =
      if (c.obtains ans.result ∧ c.tracked g false && !cache.full) ∧ b = ans.result then
        ⟨b, c.size.setWidth 32, ans.backtrace.stored⟩ :: cache.held b
      else cache.held b := by
  have hexit : ∀ v, c ≠ .pthreadExit v := by
    rintro v rfl
    cases hc
  rw [callProxy_eq hexit, accesses_alloc hc] at e
  by_cases hins : c.tracked g false && c.obtains ans.result
  · rw [if_pos hins] at e
    have e : cache.insert ans.result c.size ans.backtrace = some cache' := by
      simpa [Act.run] using e
    rw [Bool.and_eq_true] at hins
    cases hf : cache.full with
    | true =>
      obtain rfl := h.insert_of_full hf e
      exact ⟨h, fun b => by simp⟩
    | false =>
      obtain ⟨hwf, hheld⟩ := h.held_insert hf e
      refine ⟨hwf, fun b => ?_⟩
      rw [hheld b, hins.1, hins.2]
      by_cases hb : b = ans.result
      · subst hb
        simp
      · rw [if_neg (Ne.symm hb), if_neg fun h => hb h.2]
  · rw [if_neg hins] at e
    cases e
    refine ⟨h, fun b => ?_⟩
    rw [if_neg]
    rintro ⟨⟨hob, ht⟩, -⟩
    rw [Bool.and_eq_true] at ht
    exact hins (Bool.and_eq_true_iff.2 ⟨ht.1, hob⟩)

/-- **Obtaining** an area records it, if the call inserts a record. -/
theorem Sound.alloc (h : Sound cache areas) (hc : c.allocates)
    (e : callProxy g c ans cache = some cache')
    (hr : returned areas c ans.result
      ⟨c, ans.backtrace, owner, c.tracked g false && !cache.full⟩ = some areas') :
    Sound cache' areas' ∧ (Kept cache areas → Kept cache' areas') := by
  have hkept : Raphael.kept areas c ans.result = areas := by
    funext a
    rw [Raphael.kept, released_alloc hc, if_neg (by simp)]
  have hnull := returned_null hr h.null
  obtain ⟨hareas, hfresh⟩ := returned_eq hr
  rw [hkept] at hareas hfresh
  obtain ⟨hwf, hheld⟩ := held_alloc h.wf hc e
  by_cases hob : c.obtains ans.result
  · have hnil : cache.held ans.result = [] := by
      refine (h.held ans.result).resolve_right ?_
      rintro ⟨x, hx, -⟩
      rw [(hfresh hob).2] at hx
      cases hx
    have hhere := hareas ans.result
    have hrec := hheld ans.result
    rw [if_pos ⟨hob, rfl⟩] at hhere
    rw [hnil] at hrec
    have hat : ∀ x, areas' ans.result = some x → x.recorded →
        cache'.held ans.result = [x.record ans.result] := by
      rw [hhere]
      rintro x ⟨⟩ ht
      rw [hrec, if_pos ⟨⟨hob, ht⟩, rfl⟩]
      rfl
    have hone : cache'.held ans.result = [] ∨ ∃ x, areas' ans.result = some x ∧ x.recorded ∧
        cache'.held ans.result = [x.record ans.result] := by
      by_cases ht : c.tracked g false && !cache.full
      · exact Or.inr ⟨_, hhere, ht, hat _ hhere ht⟩
      · rw [hrec, if_neg fun h => ht h.1.2]
        exact Or.inl rfl
    obtain ⟨hs, hk⟩ := h.change hwf hnull (fun b hb => by rw [hheld b, if_neg fun h => hb h.2])
      (fun b hb => by rw [hareas b, if_neg fun h => hb h.2]) hone
    refine ⟨hs, ?_⟩
    intro hkept
    refine (hk hkept).2 ?_
    intro x hx hx'
    rw [hat x hx hx']
    exact List.mem_singleton_self _
  · -- a failed call changes nothing
    have hsame : areas' = areas := funext fun b => by rw [hareas b, if_neg fun h => hob h.1]
    have hcache : ∀ b, cache'.held b = cache.held b :=
      fun b => by rw [hheld b, if_neg fun h => hob h.1.1]
    rw [hsame]
    refine ⟨⟨hwf, h.null, ?_⟩, ?_⟩
    · intro b
      rw [hcache b]
      exact h.held b
    · intro hk b x hx hrec
      rw [hcache b]
      exact hk b x hx hrec

end table

/-! ## The threads and their stacks -/

/-- The stacks of the runtime are live, each the one of its thread. -/
def Owned (areas : Areas) (threads : ℕ → Option Thread) : Prop :=
  ∀ t th, threads t = some th → th.own → ∃ x, areas th.base = some x ∧ x.owner = some t

/-- What holds between steps. -/
structure Inv (s : State) : Prop where
  table : Sound s.cache s.areas
  owned : Owned s.areas s.threads

section threads
variable {areas areas' : Areas} {threads : ℕ → Option Thread}

/-- Areas without an owner may come and go. -/
theorem Owned.mono (h : Owned areas threads)
    (hareas : ∀ a x u, areas a = some x → x.owner = some u → areas' a = some x) :
    Owned areas' threads := by
  intro t th ht hown
  obtain ⟨x, hx, hx'⟩ := h t th ht hown
  exact ⟨x, hareas _ x t hx hx', hx'⟩

/-- A change of one thread. -/
theorem Owned.set {t : ℕ} {th' : Option Thread} (h : Owned areas threads)
    (hth : ∀ th, th' = some th → th.own → ∃ x, areas th.base = some x ∧ x.owner = some t) :
    Owned areas (Function.update threads t th') := by
  intro u th hu hown
  by_cases hut : u = t
  · subst hut
    rw [Function.update_self] at hu
    exact hth th hu hown
  · rw [Function.update_of_ne hut] at hu
    exact h u th hu hown

/-- The stack of a thread goes with it: it is that of no other thread. -/
theorem Owned.drop {t : ℕ} {th : Thread} (h : Owned areas threads) (ht : threads t = some th)
    (hown : th.own) :
    Owned (Function.update areas th.base none) (Function.update threads t none) := by
  intro u th' hu hown'
  have hut : u ≠ t := by
    rintro rfl
    rw [Function.update_self] at hu
    cases hu
  rw [Function.update_of_ne hut] at hu
  obtain ⟨x, hx, hx'⟩ := h u th' hu hown'
  obtain ⟨y, hy, hy'⟩ := h t th ht hown
  have hne : th'.base ≠ th.base := by
    intro hbase
    rw [hbase, hy, Option.some.injEq] at hx
    rw [← hx, hy', Option.some.injEq] at hx'
    exact hut hx'.symm
  exact ⟨x, by rw [Function.update_of_ne hne, hx], hx'⟩

end threads

/-! ## Steps -/

section steps
variable {g : Configs} {s s' : State} {c : Call} {ans : Answers} {owner : Option ℕ} {t : ℕ}
  {th : Thread}

/-- What was live stays, and what is obtained gets the owner it is obtained for. -/
theorem alloc_spec (h : Inv s) (hc : c.allocates) (e : s.alloc g owner c ans = some s') :
    Inv s' ∧ (Kept s.cache s.areas → Kept s'.cache s'.areas) ∧
      (c.obtains ans.result → ∃ x, s'.areas ans.result = some x ∧ x.owner = owner) := by
  obtain ⟨cache, hcall, e⟩ := Option.bind_eq_some_iff.1 e
  obtain ⟨areas, hr, rfl⟩ := Option.map_eq_some_iff.1 e
  obtain ⟨hs, hk⟩ := h.table.alloc hc hcall hr
  have hlive : ∀ a x, s.areas a = some x → areas a = some x := by
    intro a x hx
    exact (returned_keep hr hx (by simp [released_alloc hc])).1
  refine ⟨⟨hs, h.owned.mono fun a x _ hx _ => hlive a x hx⟩, hk, ?_⟩
  intro hob
  have hnew := (returned_eq hr).1 ans.result
  rw [if_pos ⟨hob, rfl⟩] at hnew
  exact ⟨_, hnew, rfl⟩

/-- A call that releases the area at `a` drops its record. -/
theorem release_spec (h : Inv s) {a : Word} (hrel : c.released ans.result = some a)
    (hacc : c.accesses g ans.backtrace ans.result = [.remove a])
    (e : s.release g c ans = some s') :
    Sound s'.cache s'.areas ∧ s'.areas = Function.update s.areas a none ∧
      s'.threads = s.threads ∧ (Kept s.cache s.areas → Kept s'.cache s'.areas) := by
  obtain ⟨cache, hcall, rfl⟩ := Option.map_eq_some_iff.1 e
  have hexit : ∀ v, c ≠ .pthreadExit v := by
    rintro v rfl
    cases hrel
  rw [callProxy_eq hexit, hacc] at hcall
  have hremove : s.cache.remove a = some cache := by simpa [Act.run] using hcall
  have hareas : kept s.areas c ans.result = Function.update s.areas a none := by
    funext b
    by_cases hb : b = a
    · subst hb
      rw [kept, if_pos hrel, Function.update_self]
    · rw [kept, if_neg fun h => hb (Option.some.inj (h.symm.trans hrel)), Function.update_of_ne hb]
  obtain ⟨hs, hk⟩ :=
    h.table.remove hremove (h.table.null_update a) fun b hb => Function.update_of_ne hb ..
  refine ⟨hareas ▸ hs, hareas, rfl, ?_⟩
  intro hkept
  rw [hareas]
  refine (hk hkept).2 ?_
  intro x hx
  rw [Function.update_self] at hx
  cases hx

/-- A thread is dropped with its stack, and the record of the stack. -/
theorem reap_spec (hv : g.isVss) (h : Inv s) (ht : s.threads t = some th)
    (e : s.reap g t th = some s') :
    Inv s' ∧ (Kept s.cache s.areas → Kept s'.cache s'.areas) := by
  unfold State.reap at e
  split_ifs at e with hown
  · obtain ⟨x, hx, e⟩ := Option.bind_eq_some_iff.1 e
    obtain ⟨s₁, hrelease, rfl⟩ := Option.map_eq_some_iff.1 e
    have hacc := accesses_munmap hv (ne_null h.table.null hx) x.call.size (Answers.of 0).backtrace
    obtain ⟨hs, hareas, hthreads, hk⟩ := release_spec h rfl hacc hrelease
    have howned := h.owned.drop ht hown
    rw [← hareas, ← hthreads] at howned
    exact ⟨⟨hs, howned⟩, hk⟩
  · cases e
    exact ⟨⟨h.table, h.owned.set nofun⟩, id⟩

/-- **The exit of a thread** drops the record at the base of its stack, and
    releases a stack of the runtime if the thread is detached. -/
theorem exit_spec (hv : g.isVss) (h : Inv s) (ht : s.threads t = some th) {value : Word}
    (e : s.exit g t th value = some s') :
    Inv s' ∧ (∀ a, s'.cache.held a ≠ s.cache.held a →
        a = th.base ∧ ∃ x, s.areas a = some x ∧ x.recorded) ∧
      (th.own ∧ th.detached → s'.areas th.base = none) ∧
      (Kept s.cache s.areas → (Kept s'.cache s'.areas ↔
        (th.own ∧ th.detached) ∨ ∀ x, s.areas th.base = some x → x.recorded = false)) := by
  obtain ⟨cache, hexit, rfl⟩ := Option.map_eq_some_iff.1 e
  rw [exitProxy_eq hv] at hexit
  have hchange : ∀ a, cache.held a ≠ s.cache.held a →
      a = th.base ∧ ∃ x, s.areas a = some x ∧ x.recorded := by
    intro a hne
    rw [(h.table.wf.held_remove hexit).2 a] at hne
    rcases h.table.held a with hnil | ⟨x, hx, hrec, -⟩
    · simp [hnil] at hne
    · exact ⟨by_contra fun ha => hne (if_neg (Ne.symm ha)), x, hx, hrec⟩
  by_cases hfree : th.own ∧ th.detached
  · obtain ⟨hs, hk⟩ := h.table.remove hexit (h.table.null_update th.base)
      fun b hb => Function.update_of_ne hb ..
    have hnone : Function.update s.areas th.base none th.base = none := Function.update_self ..
    have howned := h.owned.drop ht hfree.1
    simp only [hfree.1, hfree.2, Bool.and_self, if_true]
    refine ⟨⟨hs, howned⟩, hchange, fun _ => hnone, ?_⟩
    intro hkept
    refine iff_of_true ((hk hkept).2 ?_) (Or.inl ⟨trivial, trivial⟩)
    intro x hx
    rw [hnone] at hx
    cases hx
  · obtain ⟨hs, hk⟩ := h.table.remove hexit h.table.null fun _ _ => rfl
    rw [← Bool.and_eq_true] at hfree
    simp only [if_neg hfree, ← Bool.and_eq_true]
    refine ⟨⟨hs, h.owned.set ?_⟩, hchange, fun h' => absurd h' hfree,
      fun hkept => (hk hkept).trans (or_iff_right hfree).symm⟩
    -- a thread that stays keeps its stack
    intro th' hth' hown
    split_ifs at hth'
    cases hth'
    exact h.owned t th ht hown

/-- A running thread can exit: the proxy finds its way through the table. -/
theorem exit_isSome (hv : g.isVss) (h : Inv s) (ht : s.threads t = some th)
    (hrun : th.exited = false) (value : Word) : (step g s (.exit t value)).isSome := by
  obtain ⟨cache, e⟩ := h.table.wf.remove_isSome th.base
  simp [step, ht, hrun, State.exit, exitProxy_eq hv, e]

/-- Steps other than an exit keep the records. -/
theorem kept_iff_frees {l : Action} (hf : Frees s l)
    (hk : Kept s.cache s.areas → Kept s'.cache s'.areas) :
    Kept s.cache s.areas → (Kept s'.cache s'.areas ↔ Frees s l) := by
  intro hkept
  exact iff_of_true (hk hkept) hf

/-- **One step** keeps the records iff it frees what it drops. -/
theorem step_spec (hv : g.isVss) {l : Action} (h : Inv s) (e : step g s l = some s') :
    Inv s' ∧ (Kept s.cache s.areas → (Kept s'.cache s'.areas ↔ Frees s l)) := by
  cases l with
  | alloc c ans =>
    simp only [step] at e
    split_ifs at e with hc
    obtain ⟨hi, hk, -⟩ := alloc_spec h hc e
    exact ⟨hi, kept_iff_frees trivial hk⟩
  | release c ans =>
    simp only [step] at e
    split_ifs at e with hc
    obtain ⟨a, x, hx, hfree, hrel, hacc⟩ := releases_spec hv h.table.null hc ans.backtrace
    obtain ⟨hs, hareas, hthreads, hk⟩ := release_spec h hrel hacc e
    refine ⟨⟨hs, ?_⟩, kept_iff_frees trivial hk⟩
    rw [hareas, hthreads]
    refine h.owned.mono ?_
    intro b y u hy hu
    have hne : b ≠ a := by
      rintro rfl
      rw [hx, Option.some.injEq] at hy
      rw [← hy, hfree] at hu
      cases hu
    rw [Function.update_of_ne hne, hy]
  | create t c ans detached =>
    simp only [step] at e
    split_ifs at e with hc
    obtain ⟨-, hmap, hob⟩ := hc
    obtain ⟨s₁, halloc, rfl⟩ := Option.map_eq_some_iff.1 e
    obtain ⟨hi, hk, hnew⟩ := alloc_spec h (allocates_of_isMap hmap) halloc
    refine ⟨⟨hi.table, hi.owned.set ?_⟩, kept_iff_frees trivial hk⟩
    rintro th ⟨⟩ -
    exact hnew hob
  | createOn t a base detached =>
    obtain ⟨-, rfl⟩ := Lts.of_guard e
    refine ⟨⟨h.table, h.owned.set ?_⟩, kept_iff_frees trivial id⟩
    rintro th ⟨⟩ ⟨⟩
  | exit t value =>
    obtain ⟨th, ht, e⟩ := Option.bind_eq_some_iff.1 e
    split_ifs at e with hrun
    obtain ⟨hi, -, -, hk⟩ := exit_spec hv h ht e
    refine ⟨hi, ?_⟩
    intro hkept
    rw [hk hkept]
    constructor
    · intro hf th' ht'
      obtain rfl := Option.some.inj (ht.symm.trans ht')
      exact hf
    · intro hf
      exact hf th ht
  | join t =>
    obtain ⟨th, ht, e⟩ := Option.bind_eq_some_iff.1 e
    split_ifs at e with hrun
    obtain ⟨hi, hk⟩ := reap_spec hv h ht e
    exact ⟨hi, kept_iff_frees trivial hk⟩
  | detach t =>
    obtain ⟨th, ht, e⟩ := Option.bind_eq_some_iff.1 e
    split_ifs at e with hrun
    · obtain ⟨hi, hk⟩ := reap_spec hv h ht e
      exact ⟨hi, kept_iff_frees trivial hk⟩
    · cases e
      refine ⟨⟨h.table, h.owned.set ?_⟩, kept_iff_frees trivial id⟩
      rintro th' ⟨⟩ hown
      exact h.owned t th ht hown

/-- An exit that frees what it drops releases it. -/
theorem Frees.dropsReleased (hv : g.isVss) {l : Action} (h : Inv s) (hf : Frees s l) :
    DropsReleased g s l := by
  rintro t value s' rfl e a hne
  obtain ⟨th, ht, e⟩ := Option.bind_eq_some_iff.1 e
  split_ifs at e with hrun
  obtain ⟨-, hchange, hnone, -⟩ := exit_spec hv h ht e
  obtain ⟨rfl, x, hx, hrec⟩ := hchange a hne
  have hown : th.own ∧ th.detached := by
    refine (hf th ht).resolve_right ?_
    intro hnot
    rw [hnot x hx] at hrec
    cases hrec
  exact ⟨Option.isSome_of_eq_some hx, hnone hown⟩

end steps

/-! ## Runs -/

section runs
variable {g : Configs} {c : MemoryCache} {ls : List Action} {s : State}

theorem init_inv (hc : c.allocCache.mCount = allocCacheSize) : Inv (init c) where
  table := ⟨MemoryCache.Wf.reset hc, rfl, fun a => Or.inl (MemoryCache.Wf.held_reset hc a)⟩
  owned := nofun

/-- **The records of live areas are kept**, and an exit drops only what it
    releases, in exactly the runs in which every thread that exits takes the
    runtime's stack along, or leaves the base of no recorded area. -/
theorem stacks_iff (hv : g.isVss) (hc : c.allocCache.mCount = allocCacheSize)
    (h : Lts.run (step g) (init c) ls = some s) :
    RecordsKept g (init c) ls ↔ Lts.Along (step g) Frees (init c) ls := by
  have hiff := Lts.along_iff (P := fun s => Kept s.cache s.areas)
    (fun _ _ _ hi hk e => ⟨(step_spec hv hi e).1, (step_spec hv hi e).2 hk⟩) (init_inv hc) nofun h
  constructor
  · intro hkept
    exact hiff.1 hkept.1
  · intro hfrees
    refine ⟨hiff.2 hfrees, ?_⟩
    exact hfrees.imp (fun _ _ _ hi _ e => (step_spec hv hi e).1)
      (fun _ _ hi hf => hf.dropsReleased hv hi) (init_inv hc)

end runs

/-- A stack of the runtime at `0x10000`. -/
def mapStack : Call := .mmap64 0 0x4000 0 0x22 0 0

/-- A thread is created detached, and exits. -/
def detachedExit : List Action := [.create 0 mapStack (.of 0x10000) true, .exit 0 0]

/-- A thread is created joinable, and exits. -/
def joinableExit : List Action := [.create 0 mapStack (.of 0x10000) false, .exit 0 0]

theorem stacks_detachedExit : ∃ s, Lts.run (step .both) (init .blank) detachedExit = some s ∧
    RecordsKept .both (init .blank) detachedExit := by
  have hrun : (Lts.run (step .both) (init .blank) detachedExit).isSome := by decide +kernel
  have hthread : (step .both (init .blank) (.create 0 mapStack (.of 0x10000) true)).map (fun s =>
      (s.threads 0).map fun th => th.own && th.detached) = some (some true) := by decide +kernel
  obtain ⟨s, e⟩ := Option.isSome_iff_exists.1 hrun
  refine ⟨s, e, (stacks_iff rfl rfl e).2 ⟨trivial, fun s₁ e₁ => ⟨fun th ht => Or.inl ?_, ?_⟩⟩⟩
  · rw [e₁, Option.map_some, ht] at hthread
    simpa using hthread
  · exact fun _ _ => trivial

/-- **A joinable thread that exits**: its stack is still mapped, the record is gone. -/
theorem stacks_joinableExit : ¬ ∀ ls s, Lts.run (step .both) (init .blank) ls = some s →
    RecordsKept .both (init .blank) ls := by
  intro h
  have heval : (Lts.run (step .both) (init .blank) joinableExit).map (fun s =>
      ((s.areas 0x10000).map Area.recorded, s.cache.held 0x10000)) = some (some true, []) := by
    decide +kernel
  obtain ⟨s, e, hs⟩ := Option.map_eq_some_iff.1 heval
  obtain ⟨harea, hheld⟩ := Prod.mk.inj hs
  obtain ⟨x, hx, hrec⟩ := Option.map_eq_some_iff.1 harea
  have hkept := (h joinableExit s e).1 joinableExit s (List.prefix_refl _) e 0x10000 x hx hrec
  rw [hheld] at hkept
  cases hkept

end Stacks

end Raphael
