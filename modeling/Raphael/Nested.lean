/-
  Mappings recorded and released at different depths of nested calls.

  The observer keeps, for every address, who made the records that the table
  holds there and whether the mapping was released since, which call holds the
  guard, and logs every successful `munmap`.

  * `exec_keeps`: what the run of a call tree keeps, by induction on the tree.
  * `nested_clean`: between outermost calls no record of a released mapping is
    left, provided that whenever a recorded mapping is released, the guard is
    held by a call that releases the same address, and the record is the most
    recent one of that address.
-/
import Raphael.Client
import Raphael.Exec
import Raphael.Store

namespace Raphael

namespace Nested

/-- A record of the table: the call that made it, and whether the mapping it
    stands for was released since. -/
structure Entry where
  call : Call
  backtrace : Backtrace
  released : Bool

def Entry.record (a : Word) (e : Entry) : Record :=
  ⟨a, e.call.size.setWidth 32, e.backtrace.stored⟩

/-- The record is that of a mapping of length `n`. -/
def Entry.maps (n : Word) (e : Entry) : Bool := e.call.isMap && e.call.size = n

/-- The record after a mapping of length `n` was released at its address. -/
def Entry.release (n : Word) (e : Entry) : Entry :=
  if e.maps n then { e with released := true } else e

/-- The call that holds the guard, and what its original returns. -/
abbrev Holder := Option (Call × Word)

/-- The address whose record the holder removes when its original has returned:
    that of a `free`, a `munmap`, or a `realloc` that releases its block. -/
def Holder.drops (h : Holder) : Option Word := h.bind fun x => x.1.drops x.2

/-- A successful `munmap(address, size)`: the records that the table held for
    the address, and who held the guard. -/
structure Release where
  address : Word
  size : Word
  entries : List Entry
  holder : Holder

/-- If the mapping is recorded, the guard is held by a call that releases its
    address, and no record but the most recent one of the address is of such a
    mapping. -/
def Release.caught (x : Release) : Bool :=
  (!x.entries.any (Entry.maps x.size) || x.holder.drops = some x.address) &&
    x.entries.tail.all fun e => !e.maps x.size

structure Ghost where
  entries : Word → List Entry
  holder : Holder
  log : List Release

def observe : Event → Ghost → Ghost
  | .hold c r, γ => { γ with holder := some (c, r) }
  | .letGo, γ => { γ with holder := none }
  | .returned (.munmap a n) r, γ =>
    if r = 0 then
      { γ with
        entries := Function.update γ.entries a ((γ.entries a).map (Entry.release n))
        log := γ.log ++ [⟨a, n, γ.entries a, γ.holder⟩] }
    else γ
  | .returned _ _, γ => γ
  | .insert c a bt full, γ =>
    if full then γ
    else { γ with entries := Function.update γ.entries a (⟨c, bt, false⟩ :: γ.entries a) }
  | .remove a, γ => { γ with entries := Function.update γ.entries a (γ.entries a).tail }

/-- An empty table. -/
def init (c : MemoryCache) : Seq Ghost := ⟨c.reset, false, fun _ => [], none, []⟩

/-- The entry is no record of a released mapping. -/
def Entry.Current (e : Entry) : Prop := e.call.isMap → e.released = false

/-- The entries are those of the table, and current, except for the most recent
    one at the address `d`. -/
structure CleanBut (d : Option Word) (s : Seq Ghost) : Prop where
  wf : s.cache.Wf
  held : ∀ a, (s.ghost.entries a).map (Entry.record a) = s.cache.held a
  current : ∀ a, ∀ e ∈ (s.ghost.entries a).drop (if d = some a then 1 else 0), e.Current

structure Inv (s : Seq Ghost) : Prop where
  clean : CleanBut s.ghost.holder.drops s
  quiet : s.guard = false → s.ghost.holder = none

/-- Of what a caught release finds, only what is about to be removed is of the
    mapping. -/
theorem Release.rest_of_caught {x : Release} (h : x.caught) :
    ∀ e ∈ x.entries.drop (if x.holder.drops = some x.address then 1 else 0),
      e.maps x.size = false := by
  simp only [Release.caught, Bool.and_eq_true, Bool.or_eq_true, Bool.not_eq_true',
    decide_eq_true_eq, List.all_eq_true] at h
  obtain ⟨hheld, htail⟩ := h
  split_ifs with hd
  · simpa using htail
  · simpa using hheld.resolve_right hd

namespace CleanBut
variable {d : Option Word} {s s' : Seq Ghost} {c : Call}

theorem weaken (h : CleanBut none s) (d : Option Word) : CleanBut d s :=
  ⟨h.wf, h.held, fun a e he => h.current a e (by simpa using List.mem_of_mem_drop he)⟩

/-- An original returned; a successful `munmap` is caught. -/
theorem returned (h : CleanBut s.ghost.holder.drops s) (r : Word)
    (ok : ∀ x ∈ (s.note observe (.returned c r)).ghost.log, x.caught) :
    CleanBut s.ghost.holder.drops (s.note observe (.returned c r)) := by
  cases c with
  | munmap a n =>
    simp only [Seq.note, observe] at ok ⊢
    split_ifs with hr
    · rw [if_pos hr] at ok
      have hx := Release.rest_of_caught (ok ⟨a, n, s.ghost.entries a, s.ghost.holder⟩ (by simp))
      refine ⟨h.wf, fun b => ?_, fun b e he => ?_⟩ <;> by_cases hb : b = a
      · subst hb
        rw [← h.held b]
        simp only [Function.update_self, List.map_map]
        refine List.map_congr_left fun e _ => ?_
        simp only [Function.comp, Entry.release]
        split <;> rfl
      · simp only [Function.update_of_ne hb]; exact h.held b
      · subst hb
        simp only [Function.update_self, ← List.map_drop, List.mem_map] at he
        obtain ⟨e, he, rfl⟩ := he
        rw [Entry.release, hx e he]
        exact h.current b e he
      · simp only [Function.update_of_ne hb] at he
        exact h.current b e he
    · exact h
  | _ => exact h

theorem insert (h : CleanBut none s) {a n : Word} {bt : Backtrace} (hn : c.size = n)
    (e : s.access observe c (.insert a n bt) = some s') :
    CleanBut none s' := by
  obtain ⟨cache, hc, rfl⟩ := Option.map_eq_some_iff.1 e
  simp only [Seq.note, observe]
  by_cases hf : s.cache.full = true
  · rw [if_pos hf, h.wf.insert_of_full hf hc]
    exact h
  · have hf : s.cache.full = false := by simpa using hf
    obtain ⟨hwf, hheld⟩ := h.wf.held_insert hf hc
    rw [if_neg (by simp [hf])]
    refine ⟨hwf, fun b => ?_, fun b x hx => ?_⟩ <;> by_cases hb : b = a
    · subst hb
      simp [hheld, ← h.held, Entry.record, hn]
    · simp [hheld, Ne.symm hb, Function.update_of_ne hb, h.held]
    · subst hb
      simp only [Function.update_self, reduceCtorEq, if_false, List.drop_zero, List.mem_cons] at hx
      rcases hx with rfl | hx
      exacts [fun _ => rfl, h.current b x (by simpa using hx)]
    · simp only [Function.update_of_ne hb] at hx
      exact h.current b x hx

theorem remove {a : Word} (h : CleanBut (some a) s)
    (e : s.access observe c (.remove a) = some s') :
    CleanBut none s' := by
  obtain ⟨cache, hc, rfl⟩ := Option.map_eq_some_iff.1 e
  obtain ⟨hwf, hheld⟩ := h.wf.held_remove hc
  refine ⟨hwf, fun b => ?_, fun b x hx => ?_⟩ <;> simp only [Seq.note, observe] at * <;>
    by_cases hb : b = a
  · subst hb; simp [hheld, ← h.held, List.map_tail]
  · simp [hheld, Ne.symm hb, Function.update_of_ne hb, h.held]
  · subst hb
    exact h.current b x (by simpa using hx)
  · simp only [Function.update_of_ne hb] at hx
    refine h.current b x ?_
    simpa [Ne.symm hb] using hx

/-- The accesses of a call leave the table clean, if only the record that the
    call removes was not. -/
theorem accesses {limit : BitVec 32} {bt : Backtrace} {r : Word} (h : CleanBut (c.drops r) s)
    (e : (c.acts limit bt r).foldlM (Seq.access observe c) s = some s') : CleanBut none s' := by
  have hins : ∀ {s₁ : Seq Ghost}, CleanBut none s₁ →
      (bif c.records limit r then [Act.insert r c.size bt] else []).foldlM
        (Seq.access observe c) s₁ = some s' → CleanBut none s' := by
    intro s₁ h₁ e₁
    cases hr : c.records limit r <;> simp only [hr, cond_false, cond_true] at e₁
    · cases e₁; exact h₁
    · rw [List.foldlM_cons] at e₁
      obtain ⟨s₂, h₂, e₁⟩ := Option.bind_eq_some_iff.1 e₁
      cases e₁
      exact h₁.insert rfl h₂
  rw [Call.acts, List.foldlM_append] at e
  obtain ⟨s₁, h₁, e⟩ := Option.bind_eq_some_iff.1 e
  rcases hd : c.drops r with _ | a <;> rw [hd] at h h₁
  · cases h₁
    exact hins h e
  · simp only [Option.map_some, Option.toList_some, List.foldlM_cons] at h₁
    obtain ⟨s₂, h₂, h₁⟩ := Option.bind_eq_some_iff.1 h₁
    cases h₁
    exact hins (h.remove h₂) e

end CleanBut

/-! ## Runs -/

/-- What a run from `s` to `s'` keeps: the log grows, and if every release was
    caught the invariant, the guard and what is about to be dropped stay. -/
structure Keeps (s s' : Seq Ghost) : Prop where
  log : s.ghost.log ⊆ s'.ghost.log
  inv : Inv s → (∀ x ∈ s'.ghost.log, x.caught) →
    Inv s' ∧ s'.guard = s.guard ∧ s'.ghost.holder = s.ghost.holder

theorem Keeps.trans {s₁ s₂ s₃ : Seq Ghost} (h : Keeps s₁ s₂) (h' : Keeps s₂ s₃) : Keeps s₁ s₃ where
  log := List.Subset.trans h.log h'.log
  inv I ok := by
    obtain ⟨I₂, hg, hd⟩ := h.inv I fun x hx => ok x (h'.log hx)
    obtain ⟨I₃, hg', hd'⟩ := h'.inv I₂ ok
    exact ⟨I₃, hg'.trans hg, hd'.trans hd⟩

theorem log_returned (c : Call) (r : Word) (s : Seq Ghost) :
    s.ghost.log ⊆ (s.note observe (.returned c r)).ghost.log := by
  cases c <;> simp only [Seq.note, observe, List.Subset.refl]
  split
  exacts [List.subset_append_left .., List.Subset.refl _]

theorem holder_returned (c : Call) (r : Word) (s : Seq Ghost) :
    (s.note observe (.returned c r)).ghost.holder = s.ghost.holder := by
  cases c <;> simp only [Seq.note, observe]
  split <;> rfl

/-- An original returns. -/
theorem keeps_returned (c : Call) (r : Word) (s : Seq Ghost) :
    Keeps s (s.note observe (.returned c r)) where
  log := log_returned c r s
  inv I ok := by
    have hd := holder_returned c r s
    refine ⟨⟨?_, fun hg => hd.trans (I.quiet hg)⟩, rfl, hd⟩
    rw [hd]; exact I.clean.returned r ok

theorem access_log {c : Call} {s s' : Seq Ghost} {a : Act} (e : s.access observe c a = some s') :
    s'.ghost.log = s.ghost.log := by
  cases a with
  | insert a n bt =>
    obtain ⟨cache, -, rfl⟩ := Option.map_eq_some_iff.1 e
    simp only [Seq.note, observe]
    split <;> rfl
  | remove a =>
    obtain ⟨cache, -, rfl⟩ := Option.map_eq_some_iff.1 e
    rfl

theorem accesses_log {c : Call} {l : List Act} {s s' : Seq Ghost}
    (e : l.foldlM (Seq.access observe c) s = some s') : s'.ghost.log = s.ghost.log := by
  induction l generalizing s with
  | nil => cases e; rfl
  | cons a l ih =>
    rw [List.foldlM_cons] at e
    obtain ⟨s₁, e₁, e⟩ := Option.bind_eq_some_iff.1 e
    exact (ih e).trans (access_log e₁)

/-- A tracked call: the guard is set, the original `s₁ → s₂` keeps, the accesses
    follow. -/
theorem keeps_guarded {limit : BitVec 32} {bt : Backtrace} {c : Call} {r : Word}
    {s s₁ s₂ : Seq Ghost} (hg : s.guard = false)
    (h : Keeps (Seq.note observe (.hold c r) { s with guard := true }) s₁)
    (e : (c.acts limit bt r).foldlM (Seq.access observe c) s₁ = some s₂) :
    Keeps s (Seq.note observe .letGo { s₂ with guard := false }) where
  log := by
    have := accesses_log e
    simp only [Seq.note, observe, this]
    exact h.log
  inv I ok := by
    have hnone := I.quiet hg
    have hclean := I.clean
    rw [hnone] at hclean
    have I₀ : Inv (Seq.note observe (.hold c r) { s with guard := true }) :=
      ⟨⟨hclean.wf, hclean.held, (hclean.weaken (c.drops r)).current⟩, nofun⟩
    obtain ⟨I₁, -, hd⟩ := h.inv I₀ fun x hx => ok x (by
      simp only [Seq.note, observe, accesses_log e]; exact hx)
    have h₁ := I₁.clean
    rw [hd] at h₁
    have h₂ := h₁.accesses e
    exact ⟨⟨⟨h₂.wf, h₂.held, h₂.current⟩, fun _ => rfl⟩, hg.symm, hnone.symm⟩

/-- No thread returns from `pthread_exit`. -/
theorem exec_exit {γ : Type} (g : Configs) (observe : Event → γ → γ) (v : Word) (ans : Answers)
    (ts : List CallTree) (s : Seq γ) : exec g observe (.node (.pthreadExit v) ans ts) s = none := by
  rw [exec, Option.map_eq_none_iff]
  simp only [proxy, pthreadExitProxy, Hook.test, Prog.op_bind, Prog.ret_bind, Prog.exec,
    Seq.perform, Option.bind_some]
  split
  · rcases hb : ans.stackBase with _ | base
    · simp [Hook.stackBase, Hook.origin, Prog.exec, Seq.perform, hb]
    · rcases s.cache.remove base with _ | cache <;>
        simp [Hook.stackBase, Hook.origin, Hook.setGuard, Hook.remove, Prog.exec, Seq.perform,
          Seq.note, hb]
  · rfl

variable {g : Configs}

mutual

/-- **The run of a call tree** keeps the invariant. -/
theorem exec_keeps : ∀ (t : CallTree) {s s' : Seq Ghost}, exec g observe t s = some s' → Keeps s s'
  | .node c ans ts, s, s', e => by
    by_cases hc : ∀ v, c ≠ .pthreadExit v
    · rw [exec_node hc] at e
      split_ifs at e with ht
      · obtain ⟨s₁, e₁, e⟩ := Option.bind_eq_some_iff.1 e
        obtain ⟨s₂, e₂, rfl⟩ := Option.map_eq_some_iff.1 e
        have hguard : s.guard = false := by cases c <;> simp_all [Call.tracked]
        exact keeps_guarded hguard
          ((execAll_keeps ts e₁).trans (keeps_returned c ans.result s₁)) e₂
      · obtain ⟨s₁, e₁, rfl⟩ := Option.map_eq_some_iff.1 e
        exact (execAll_keeps ts e₁).trans (keeps_returned c ans.result s₁)
    · push Not at hc
      obtain ⟨v, rfl⟩ := hc
      rw [exec_exit] at e
      simp at e

theorem execAll_keeps : ∀ (ts : List CallTree) {s s' : Seq Ghost},
    execAll g observe ts s = some s' → Keeps s s'
  | [], s, s', e => by
    rw [execAll] at e
    cases e
    exact ⟨List.Subset.refl _, fun I _ => ⟨I, rfl, rfl⟩⟩
  | t :: ts, s, s', e => by
    rw [execAll] at e
    obtain ⟨s₁, e₁, e⟩ := Option.bind_eq_some_iff.1 e
    exact (exec_keeps t e₁).trans (execAll_keeps ts e)

end

theorem inv_init {c : MemoryCache} (hc : c.allocCache.mCount = allocCacheSize) : Inv (init c) where
  clean := ⟨MemoryCache.Wf.reset hc, fun a => (MemoryCache.Wf.held_reset hc a).symm, by simp [init]⟩
  quiet _ := rfl

/-- **Between outermost calls no record of a released mapping is left**, if
    every successful `munmap` was caught.  The entries are the records of the
    table. -/
theorem nested_clean {c : MemoryCache} (hc : c.allocCache.mCount = allocCacheSize)
    {ts : List CallTree} {s : Seq Ghost} (e : execAll g observe ts (init c) = some s)
    (ok : ∀ x ∈ s.ghost.log, x.caught) :
    ∀ a, (s.ghost.entries a).map (Entry.record a) = s.cache.held a ∧
      ∀ x ∈ s.ghost.entries a, x.call.isMap → x.released = false := by
  obtain ⟨I, -, hd⟩ := (execAll_keeps ts e).inv (inv_init hc) ok
  have h := I.clean
  rw [hd] at h
  exact fun a => ⟨h.held a, fun x hx => h.current a x (by simpa [init, Holder.drops] using hx)⟩

def mapCall : Call := .mmap 0 4096 3 34 0 0

/-- A small `malloc` maps an area and returns its start; the `free` of it unmaps
    the area; another `malloc` maps it again. -/
def remapped : List CallTree :=
  [.node (.malloc 16) (.of 0x10000) [.leaf mapCall (.of 0x10000)],
    .node (.free 0x10000) (.of 0) [.leaf (.munmap 0x10000 4096) (.of 0)],
    .node (.malloc 16) (.of 0x10010) [.leaf mapCall (.of 0x10000)]]

theorem nested_clean_remapped : ∃ s, execAll .both observe remapped (init .blank) = some s ∧
    s.ghost.log.length = 1 ∧ s.cache.held 0x10000 = [⟨0x10000, 4096, [7]⟩] ∧
      ∀ x ∈ s.ghost.entries 0x10000, x.call.isMap → x.released = false := by
  have hs : (execAll .both observe remapped (init .blank)).map (fun s =>
      (s.ghost.log.all Release.caught, s.ghost.log.length, s.cache.held 0x10000)) =
        some (true, 1, [⟨0x10000, 4096, [7]⟩]) := by decide +kernel
  obtain ⟨s, e, hs⟩ := Option.map_eq_some_iff.1 hs
  simp only [Prod.mk.injEq, List.all_eq_true] at hs
  obtain ⟨hcaught, hlog, hheld⟩ := hs
  exact ⟨s, e, hlog, hheld, (nested_clean rfl e hcaught 0x10000).2⟩

/-- The run that breaks it: a small `malloc` is not tracked, so the mapping that
    it makes is recorded; `free` holds the guard, so the `munmap` that it makes
    is not tracked. -/
def arena : List CallTree :=
  [.node (.malloc 16) (.of 0x10010) [.leaf mapCall (.of 0x10000)],
    .node (.free 0x10010) (.of 0) [.leaf (.munmap 0x10000 4096) (.of 0)]]

theorem nested_stale : ¬ ∀ (g : Configs) (c : MemoryCache) (ts : List CallTree) (s : Seq Ghost),
    g.isVss → c.allocCache.mCount = allocCacheSize → execAll g observe ts (init c) = some s →
    ∀ a, ∀ x ∈ s.ghost.entries a, x.call.isMap → x.released = false := by
  intro h
  have hs : (execAll .both observe arena (init .blank)).map (fun s =>
      (s.ghost.entries 0x10000).map fun x => (x.call.isMap, x.released)) = some [(true, true)] := by
    decide +kernel
  obtain ⟨s, e, hs⟩ := Option.map_eq_some_iff.1 hs
  obtain ⟨x, l, hx, hx', -⟩ := List.map_eq_cons_iff.1 hs
  simp only [Prod.mk.injEq] at hx'
  have := h .both .blank arena s rfl rfl e 0x10000 x (by rw [hx]; exact List.mem_cons_self) hx'.1
  simp [this] at hx'

end Nested

end Raphael
