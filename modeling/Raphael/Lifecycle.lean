/-
  Sessions of the recorder (Raphael.cpp) against hooked calls in flight.

  One control thread starts, prints and stops sessions, step by step; any number
  of other threads run the proxies, operation by operation.  The hooks stay
  installed when a session ends, the global pointer `cache` keeps its value.
  Of the table objects only their life is kept.

  * `Control.Sound`: what the steps that the control thread has still to make
    will do; `start_sound` and `stop_sound` run the two functions.
  * `lifecycle_safe`: the proxies use only tables that are reset and not
    deleted, provided that no call that may still use the table is in flight
    when `stop` deletes it.
-/
import Raphael.Proxy
import Raphael.Lib.Lts

namespace Raphael

namespace Lifecycle

/-- The life of a `MemoryCache`. -/
inductive Life
  | fresh | ready | deleted
  deriving DecidableEq

/-- The shared variables, and the objects in the order of their creation. -/
structure Control where
  cache : Option ℕ
  mCache : Option ℕ
  life : ℕ → Life
  made : ℕ
  g : Configs
  hooked : Bool
  /-- how often the key `guard` was created, and whether it exists -/
  key : ℕ
  keyed : Bool

/-- The steps of `start` and `stop` that others can see. -/
inductive Ctl
  /-- `mCache = new MemoryCache(mSpace)` -/
  | new
  /-- `cache = (pNew ? pNew : cache)`, for `pNew = mCache` or `nullptr` -/
  | setCache (own : Bool)
  | setLimit (params : BitVec 32)
  | setDepth (params : BitVec 32)
  | setPss (params : BitVec 32)
  | setVss (params : BitVec 32)
  /-- `registerSoLoadProxy` or `registerInlineProxy` -/
  | register
  /-- `mCache->reset()` -/
  | reset
  /-- `pthread_key_create(&guard, nullptr)` -/
  | createKey
  /-- `mCache->print()` -/
  | print
  /-- `delete mCache` -/
  | delete
  /-- `mCache = nullptr` -/
  | clear
  /-- `pthread_key_delete(guard)` -/
  | deleteKey
  deriving DecidableEq

def Ctl.exec (c : Control) : Ctl → Option Control
  | new => some { c with
      mCache := some c.made, life := Function.update c.life c.made .fresh, made := c.made + 1 }
  | setCache own => some { c with cache := if own then c.mCache.or c.cache else c.cache }
  | setLimit params => some { c with g := { c.g with limit := (Configs.ofParams params).limit } }
  | setDepth params => some { c with g := { c.g with depth := (Configs.ofParams params).depth } }
  | setPss params => some { c with g := { c.g with isPss := (Configs.ofParams params).isPss } }
  | setVss params => some { c with g := { c.g with isVss := (Configs.ofParams params).isVss } }
  | register => some { c with hooked := true }
  | reset => c.mCache.map fun i => { c with life := Function.update c.life i .ready }
  | createKey => some { c with key := c.key + 1, keyed := true }
  | print => c.mCache.map fun _ => c
  | delete => c.mCache.map fun i => { c with life := Function.update c.life i .deleted }
  | clear => some { c with mCache := none }
  | deleteKey => some { c with keyed := false }

/-- `update_configs(pNew, params)` -/
def updateConfigs (own : Bool) (params : BitVec 32) : List Ctl :=
  [.setCache own, .setLimit params, .setDepth params, .setPss params, .setVss params]

/-- `Raphael::start` -/
def start (configs : BitVec 32) : List Ctl :=
  .new :: updateConfigs true 0 ++ [.register, .reset, .createKey] ++ updateConfigs true configs

/-- `Raphael::print` -/
def print : List Ctl := [.print]

/-- `Raphael::stop` -/
def stop : List Ctl := updateConfigs false 0 ++ print ++ [.delete, .clear, .deleteKey]

/-- Another thread: the key under which its guard is set, and what is left of
    the proxy it is in. -/
structure Worker where
  mark : Option ℕ
  rest : Option (Hook Word)

structure State where
  ctl : Control
  /-- the steps of the control thread's current function still to come -/
  todo : List Ctl
  /-- a session was started and not stopped -/
  running : Bool
  worker : ℕ → Worker

inductive Label
  | start (configs : BitVec 32)
  | print
  | stop
  /-- the control thread goes on -/
  | control
  /-- thread `t` calls `c` -/
  | call (t : ℕ) (c : Call)
  /-- thread `t` goes on; what an original, the unwinder or
      `pthread_getattr_np` answers -/
  | next (t : ℕ) (r : Word) (bt : Backtrace) (base : Option Word)

namespace State

/-- Thread `t` becomes `w`. -/
def put (s : State) (t : ℕ) (w : Worker) : State :=
  { s with worker := Function.update s.worker t w }

/-- `pthread_getspecific(guard)` -/
def guard (s : State) (w : Worker) : Bool := s.ctl.keyed && w.mark = some s.ctl.key

/-- The next operation of thread `t`. -/
def next (s : State) (t : ℕ) (r : Word) (bt : Backtrace) (base : Option Word) : Hook Word → State
  | .ret _ => s.put t ⟨(s.worker t).mark, none⟩
  | .op .test k => s.put t ⟨(s.worker t).mark, some (k (s.ctl.g, s.guard (s.worker t)))⟩
  | .op (.setGuard v) k =>
    let mark := if s.ctl.keyed then if v then some s.ctl.key else none else (s.worker t).mark
    s.put t ⟨mark, some (k ())⟩
  | .op .readLimit k => s.put t ⟨(s.worker t).mark, some (k s.ctl.g.limit)⟩
  -- the thread is gone, another one may take its number
  | .op (.origin (.pthreadExit _)) _ => s.put t ⟨none, none⟩
  | .op (.origin _) k => s.put t ⟨(s.worker t).mark, some (k r)⟩
  | .op .unwind k => s.put t ⟨(s.worker t).mark, some (k bt)⟩
  | .op .stackBase k => s.put t ⟨(s.worker t).mark, some (k base)⟩
  | .op (.insert ..) k => s.put t ⟨(s.worker t).mark, some (k ())⟩
  | .op (.remove _) k => s.put t ⟨(s.worker t).mark, some (k ())⟩

def step (s : State) : Label → Option State
  | .start configs =>
    if s.todo = [] ∧ ¬ s.running then
      some { s with todo := Lifecycle.start configs, running := true }
    else none
  | .print => if s.todo = [] ∧ s.running then some { s with todo := Lifecycle.print } else none
  | .stop =>
    if s.todo = [] ∧ s.running then
      some { s with todo := Lifecycle.stop, running := false }
    else none
  | .control => match s.todo with
    | [] => none
    | o :: todo => (o.exec s.ctl).map fun ctl => { s with ctl := ctl, todo := todo }
  | .call t c =>
    if s.ctl.hooked ∧ (s.worker t).rest.isNone then
      some (s.put t ⟨(s.worker t).mark, some (proxy c)⟩)
    else none
  | .next t r bt base => (s.worker t).rest.map (s.next t r bt base)

/-- Before the first session. -/
def init : State :=
  ⟨⟨none, none, fun _ => .fresh, 0, ⟨0, 0, false, false⟩, false, 0, false⟩, [], false,
    fun _ => ⟨none, none⟩⟩

end State

/-! ## Control -/

/-- The global pointer leads to a table that is reset and not deleted. -/
def Control.Ready (c : Control) : Prop := c.cache.map c.life = some .ready

/-- A mode is on. -/
def Control.On (c : Control) : Prop := c.g.isPss ∨ c.g.isVss

/-- Between two functions of the control thread: in a session the table is
    ready, outside no mode is on. -/
def Control.Rest (running : Bool) (c : Control) : Prop :=
  if running then c.Ready ∧ c.mCache = c.cache else ¬ c.Ready ∧ ¬ c.On

/-- The steps still to come keep a mode off unless the table is ready, keep a
    ready table ready except for `delete`, and end between two functions. -/
def Control.Sound (running : Bool) : List Ctl → Control → Prop
  | [], c => (c.On → c.Ready) ∧ c.Rest running
  | o :: todo, c => (c.On → c.Ready) ∧ ∀ c', o.exec c = some c' →
      (c.Ready → o ≠ .delete → c'.Ready) ∧ Control.Sound running todo c'

theorem Control.Sound.good {running : Bool} {todo : List Ctl} {c : Control}
    (h : c.Sound running todo) : c.On → c.Ready := by
  cases todo <;> exact h.1

theorem ofParams_zero :
    (Configs.ofParams 0#32).isPss = false ∧ (Configs.ofParams 0#32).isVss = false := by
  decide

section rest
variable {c c' : Control} {b running : Bool} {o : Ctl} {todo : List Ctl}

theorem Control.Rest.good (h : c.Rest b) : c.On → c.Ready := by
  cases b with
  | false => exact fun ho => absurd ho h.2
  | true => exact fun _ => h.1

/-- A step from a state at rest that keeps a ready table ready. -/
theorem Control.Rest.cons (h : c.Rest b) (e : o.exec c = some c')
    (hkeep : b = true → o ≠ .delete → c'.Ready) (hs : c'.Sound running todo) :
    c.Sound running (o :: todo) := by
  refine ⟨h.good, fun c₁ e₁ => ?_⟩
  obtain rfl := Option.some.inj (e.symm.trans e₁)
  refine ⟨fun hr hd => ?_, hs⟩
  cases b with
  | false => exact absurd hr h.1
  | true => exact hkeep rfl hd

/-- A step from rest to rest. -/
theorem Control.Rest.goes (h : c.Rest b) (e : o.exec c = some c') (h' : c'.Rest b)
    (hs : c'.Sound running todo) : c.Sound running (o :: todo) := by
  refine h.cons e (fun hb _ => ?_) hs
  subst hb
  exact h'.1

theorem Control.Rest.setG (h : c.Rest b) {g : Configs}
    (hg : b = false → ¬ Control.On { c with g := g }) : Control.Rest b { c with g := g } := by
  cases b with
  | false => exact ⟨h.1, hg rfl⟩
  | true => exact h

/-- **`update_configs`**, with the modes off outside a session. -/
theorem update_sound {own : Bool} {params : BitVec 32} {cache : Option ℕ} (h : c.Rest b)
    (hcache : (if own then c.mCache.or c.cache else c.cache) = cache)
    (h' : Control.Rest b { c with cache := cache })
    (hp : b = false → (Configs.ofParams params).isPss = false ∧
      (Configs.ofParams params).isVss = false)
    (hs : Control.Sound running todo { c with cache := cache, g := Configs.ofParams params }) :
    c.Sound running (updateConfigs own params ++ todo) := by
  subst hcache
  refine h.goes rfl h' ?_
  -- the limit, the depth and the two modes
  have h₁ := h'.setG (g := { c.g with limit := (Configs.ofParams params).limit })
    fun hb => by subst hb; exact h'.2
  refine h'.goes rfl h₁ ?_
  have h₂ := h₁.setG (g := { (Configs.ofParams params) with isPss := c.g.isPss, isVss := c.g.isVss })
    fun hb => by subst hb; exact h'.2
  refine h₁.goes rfl h₂ ?_
  have h₃ := h₂.setG (g := { (Configs.ofParams params) with isVss := c.g.isVss }) fun hb => by
    subst hb
    rintro (hon | hon)
    · simp [(hp rfl).1] at hon
    · exact h'.2 (Or.inr hon)
  refine h₂.goes rfl h₃ ?_
  have h₄ := h₃.setG (g := Configs.ofParams params) fun hb => by
    subst hb
    simp [Control.On, (hp rfl).1, (hp rfl).2]
  exact h₃.goes rfl h₄ hs

end rest

theorem start_sound {c : Control} (h : c.Rest false) (configs : BitVec 32) :
    c.Sound true (start configs) := by
  obtain ⟨cache, mCache, life, made, g, hooked, key, keyed⟩ := c
  obtain ⟨hr, hon⟩ := h
  -- neither the table of the last session is ready nor the new one
  have hnew : Control.Rest false
      ⟨cache, some made, Function.update life made .fresh, made + 1, g, hooked, key, keyed⟩ := by
    refine ⟨fun hready => ?_, hon⟩
    obtain ⟨x, hx, hlife⟩ := Option.map_eq_some_iff.1 hready
    simp only at hx hlife
    by_cases hm : x = made
    · subst hm
      simp at hlife
    · rw [Function.update_of_ne hm] at hlife
      exact hr (by simp [Control.Ready, hx, hlife])
  have hown : Control.Rest false
      ⟨some made, some made, Function.update life made .fresh, made + 1, g, hooked, key, keyed⟩ :=
    ⟨by simp [Control.Ready], hon⟩
  refine Control.Rest.goes (b := false) ⟨hr, hon⟩ rfl hnew
    (update_sound hnew rfl hown (fun _ => ofParams_zero) ?_)
  have hoff : ∀ hooked, Control.Rest false ⟨some made, some made, Function.update life made .fresh,
      made + 1, Configs.ofParams 0, hooked, key, keyed⟩ :=
    fun _ => ⟨by simp [Control.Ready], by simp [Control.On, ofParams_zero]⟩
  refine (hoff hooked).goes rfl (hoff true) ((hoff true).cons rfl nofun ?_)
  have hready : ∀ key keyed g, Control.Rest true ⟨some made, some made,
      Function.update (Function.update life made .fresh) made .ready, made + 1, g, true, key,
      keyed⟩ := fun _ _ _ => ⟨by simp [Control.Ready], rfl⟩
  refine (hready key keyed _).goes rfl (hready (key + 1) true _) ?_
  refine update_sound (hready _ _ _) rfl (hready _ _ _) nofun ?_
  exact ⟨(hready _ _ _).good, hready _ _ _⟩

theorem stop_sound {c : Control} (h : c.Rest true) : c.Sound false stop := by
  obtain ⟨cache, mCache, life, made, g, hooked, key, keyed⟩ := c
  obtain ⟨hr, hc⟩ := h
  simp only at hc
  subst hc
  obtain ⟨i, rfl, hlife⟩ := Option.map_eq_some_iff.1 hr
  have hrest : ∀ g, Control.Rest true ⟨some i, some i, life, made, g, hooked, key, keyed⟩ :=
    fun _ => ⟨hr, rfl⟩
  refine update_sound (hrest _) rfl (hrest _) nofun ?_
  refine (hrest _).goes rfl (hrest _) ((hrest _).cons rfl (fun _ hd => absurd rfl hd) ?_)
  have hoff : ∀ mCache keyed, Control.Rest false ⟨some i, mCache, Function.update life i .deleted,
      made, Configs.ofParams 0, hooked, key, keyed⟩ :=
    fun _ _ => ⟨by simp [Control.Ready], by simp [Control.On, ofParams_zero]⟩
  refine (hoff _ _).goes rfl (hoff none keyed) ((hoff _ _).goes rfl (hoff none false) ?_)
  exact ⟨(hoff _ _).good, hoff _ _⟩

theorem print_sound {c : Control} (h : c.Rest true) : c.Sound true print := by
  have hr := h.1
  refine ⟨fun _ => hr, fun c' e => ?_⟩
  obtain ⟨i, -, rfl⟩ := Option.map_eq_some_iff.1 e
  exact ⟨fun _ _ => hr, fun _ => hr, h⟩

/-! ## Calls in flight -/

/-- The operations that use the table. -/
def uses : HookOp → Bool
  | .insert .. | .remove _ => true
  | _ => false

/-- The next operation uses the table. -/
def usesNext : Hook Word → Bool
  | .ret _ => false
  | .op o _ => uses o

/-- What is left of a proxy may still use the table: it has passed its entry
    test, and some answers lead to an access. -/
def InFlight (p : Hook Word) : Prop := p.May (· = .test) (uses ·)

theorem inFlight_op {o : HookOp} {k : HookOp.Res o → Hook Word} (ho : o ≠ .test) {r : HookOp.Res o}
    (h : InFlight (k r)) : InFlight (.op o k) := ⟨ho, Or.inr ⟨r, h⟩⟩

theorem not_inFlight_origin (c : Call) : ¬ InFlight (Hook.origin c) := by
  rintro ⟨-, h | ⟨r, h⟩⟩
  exacts [Bool.false_ne_true h, h]

/-- A proxy tests once, at its head. -/
theorem proxy_test (c : Call) : ∃ k, proxy c = .op HookOp.test k ∧
    ∀ a, (k a).Each (· ≠ .test) := by
  by_cases hc : ∀ v, c ≠ .pthreadExit v
  · refine ⟨_, proxy_eq hc, fun a => ?_⟩
    rw [Prog.each_ite]
    split
    · cases c <;>
        simp [Call.guarded_eq, Call.rest, Call.tail, insertMemoryBacktrace, Hook.unwind,
          Hook.insert, Hook.remove, Hook.readLimit, Hook.setGuard, Prog.each_ite, Prog.Each]
    · simp [Hook.origin, Prog.Each]
  · push Not at hc
    obtain ⟨v, rfl⟩ := hc
    refine ⟨_, rfl, fun a => Prog.each_ite.2 ?_⟩
    split
    · refine ⟨by simp, fun base => ?_⟩
      cases base <;> simp [Hook.origin, Hook.remove, Hook.setGuard, Prog.bind, Prog.Each]
    · simp [Hook.origin, Prog.Each]

/-- With both modes off a proxy only calls its original. -/
theorem proxy_off (c : Call) : ∃ k, proxy c = .op HookOp.test k ∧
    ∀ g guard, g.isPss = false → g.isVss = false → k (g, guard) = Hook.origin c := by
  by_cases hc : ∀ v, c ≠ .pthreadExit v
  · refine ⟨_, proxy_eq hc, fun g guard hp hv => ?_⟩
    have : c.tracked g guard = false := by cases c <;> simp [Call.tracked, hp, hv]
    simp [this]
  · push Not at hc
    obtain ⟨v, rfl⟩ := hc
    exact ⟨_, rfl, fun g guard _ hv => if_neg (by simp [hv])⟩

namespace State

/-- Every thread about to use the table finds it reset and not deleted. -/
def Safe (s : State) : Prop :=
  ∀ t p, (s.worker t).rest = some p → usesNext p → s.ctl.Ready

/-- The step does not delete the table while a call that may still use it is in
    flight. -/
def Drained (s : State) : Label → Prop
  | .control => s.todo.head? = some .delete → ∀ t p, (s.worker t).rest = some p → ¬ InFlight p
  | _ => True

structure Inv (s : State) : Prop where
  ctl : s.ctl.Sound s.running s.todo
  shape : ∀ t p, (s.worker t).rest = some p → (∃ c, p = proxy c) ∨ p.Each (· ≠ .test)
  flight : ∀ t p, (s.worker t).rest = some p → InFlight p → s.ctl.Ready

theorem Inv.safe {s : State} (I : Inv s) : s.Safe := by
  rintro t (a | ⟨o, k⟩) h hu
  · simp [usesNext] at hu
  · exact I.flight t _ h ⟨by rintro rfl; simp [usesNext, uses] at hu, Or.inl hu⟩

theorem inv_init : Inv init where
  ctl := by simp [init, Control.Sound, Control.On, Control.Rest, Control.Ready]
  shape := by simp [init]
  flight := by simp [init]

/-- A thread goes on with a program in order. -/
theorem Inv.put {s : State} (I : Inv s) {t : ℕ} {w : Worker}
    (h : ∀ p, w.rest = some p →
      ((∃ c, p = proxy c) ∨ p.Each (· ≠ .test)) ∧ (InFlight p → s.ctl.Ready)) :
    Inv (s.put t w) := by
  refine ⟨I.ctl, fun u p hu => ?_, fun u p hu hp => ?_⟩ <;> by_cases hut : u = t
  · subst hut
    simp only [State.put, Function.update_self] at hu
    exact (h p hu).1
  · simp only [State.put, Function.update_of_ne hut] at hu
    exact I.shape u p hu
  · subst hut
    simp only [State.put, Function.update_self] at hu
    exact (h p hu).2 hp
  · simp only [State.put, Function.update_of_ne hut] at hu
    exact I.flight u p hu hp

theorem Inv.next {s : State} (I : Inv s) {t : ℕ} {r : Word} {bt : Backtrace} {base : Option Word}
    {p : Hook Word} (hp : (s.worker t).rest = some p) : Inv (s.next t r bt base p) := by
  -- after an operation that is no test nothing new is open to the thread
  have hkeep : ∀ {o k} {a : HookOp.Res o} {m}, p = .op o k → o ≠ .test →
      Inv (s.put t ⟨m, some (k a)⟩) := by
    intro o k a m e ho
    refine I.put ?_
    rintro q ⟨⟩
    refine ⟨Or.inr ?_, fun hq => I.flight t p hp (e ▸ inFlight_op ho hq)⟩
    rcases I.shape t p hp with ⟨c, hc⟩ | he
    · obtain ⟨k', hk', -⟩ := proxy_test c
      rw [e, hk'] at hc
      injection hc with h
      exact absurd h ho
    · rw [e] at he; exact he.2 a
  rcases p with a | ⟨o, k⟩
  · exact I.put nofun
  cases o with
  | test =>
    obtain ⟨c, hc⟩ := (I.shape t _ hp).resolve_right fun h => h.1 rfl
    refine I.put ?_
    rintro q ⟨⟩
    obtain ⟨k', hk', he⟩ := proxy_test c
    obtain ⟨k₀, hk₀, hoff⟩ := proxy_off c
    rw [← hc] at hk' hk₀
    cases hk'
    cases hk₀
    refine ⟨Or.inr (he _), fun hq => ?_⟩
    -- a call is tracked only with a mode on, and then the table is ready
    by_contra hr
    have hon : ¬ s.ctl.On := fun h => hr (I.ctl.good h)
    simp only [Control.On, not_or, Bool.not_eq_true] at hon
    rw [hoff _ _ hon.1 hon.2] at hq
    exact not_inFlight_origin c hq
  | origin c =>
    cases c
    case pthreadExit => exact I.put nofun
    all_goals exact hkeep rfl nofun
  | _ => exact hkeep rfl nofun

theorem step_inv (s : State) (l : Label) (s' : State) (I : Inv s) (ok : s.Drained l)
    (e : step s l = some s') : Inv s' := by
  cases l with
  | start configs =>
    simp only [step] at e
    split_ifs at e with h
    cases e
    have hc := I.ctl
    simp only [h.1, Bool.eq_false_of_not_eq_true h.2] at hc
    exact ⟨start_sound hc.2 configs, I.shape, I.flight⟩
  | print =>
    simp only [step] at e
    split_ifs at e with h
    cases e
    have hc := I.ctl
    simp only [h.1, h.2] at hc
    exact ⟨by simp only [h.2]; exact print_sound hc.2, I.shape, I.flight⟩
  | stop =>
    simp only [step] at e
    split_ifs at e with h
    cases e
    have hc := I.ctl
    simp only [h.1, h.2] at hc
    exact ⟨stop_sound hc.2, I.shape, I.flight⟩
  | control =>
    simp only [step] at e
    split at e
    · simp at e
    next o todo htodo =>
      obtain ⟨ctl, he, rfl⟩ := Option.map_eq_some_iff.1 e
      have hc := I.ctl
      rw [htodo] at hc
      obtain ⟨hkeep, hs⟩ := hc.2 ctl he
      refine ⟨hs, I.shape, fun t p hp hf => hkeep (I.flight t p hp hf) ?_⟩
      rintro rfl
      exact ok (by rw [htodo]; rfl) t p hp hf
  | call t c =>
    simp only [step] at e
    split_ifs at e with h
    cases e
    refine I.put ?_
    rintro p ⟨⟩
    refine ⟨Or.inl ⟨c, rfl⟩, fun hf => ?_⟩
    obtain ⟨k, hk, -⟩ := proxy_test c
    rw [hk] at hf
    exact absurd rfl hf.1
  | next t r bt base =>
    obtain ⟨p, hp, rfl⟩ := Option.map_eq_some_iff.1 e
    exact I.next hp

end State

open State

/-- **The proxies use only tables that are reset and not deleted**, over any
    number of sessions and calls, if `stop` deletes a table only when no call
    that may still use it is in flight. -/
theorem lifecycle_safe {ls : List Label} {s : State} (ok : Lts.Along step Drained init ls)
    (e : Lts.run step init ls = some s) : s.Safe :=
  (Lts.run_inv step_inv inv_init ok e).safe

/-- Both modes on, limit 64, depth 16. -/
def params : BitVec 32 := 0x00D00040

/-- The control thread runs a function of `n` steps. -/
def whole (l : Label) (n : ℕ) : List Label := l :: List.replicate n .control

/-- Thread 0 goes on for `n` operations; its original returns 4096. -/
def goOn (n : ℕ) : List Label := List.replicate n (.next 0 4096 ⟨3, fun _ => 7⟩ none)

/-- The run that breaks it: a call has passed its test when `stop` deletes the
    table, and goes on to insert its record. -/
def lateInsert : List Label :=
  whole (.start params) 14 ++ .call 0 (.malloc 100) :: goOn 4 ++ whole .stop 9

theorem lifecycle_unsafe : ¬ ∀ (ls : List Label) (s : State),
    Lts.run step init ls = some s → s.Safe := by
  intro h
  have hs : (Lts.run step init lateInsert).map (fun s =>
      ((s.worker 0).rest.map usesNext, s.ctl.cache.map s.ctl.life)) =
      some (some true, some .deleted) := by decide +kernel
  obtain ⟨s, e, hs⟩ := Option.map_eq_some_iff.1 hs
  simp only [Prod.mk.injEq] at hs
  obtain ⟨p, hp, hu⟩ := Option.map_eq_some_iff.1 hs.1
  have hr := h lateInsert s e 0 p hp hu
  rw [Control.Ready, hs.2] at hr
  simp at hr

/-- The step is one of the control thread or of thread 0, and at a `delete`
    thread 0 is in no call. -/
def OnlyZero (s : State) : Label → Prop
  | .control => s.todo.head? = some .delete → (s.worker 0).rest.isNone
  | .call t _ | .next t _ _ _ => t = 0
  | _ => True

instance (s : State) : DecidablePred (OnlyZero s)
  | .control => inferInstanceAs (Decidable (_ → _))
  | .call t _ | .next t _ _ _ => inferInstanceAs (Decidable (t = 0))
  | .start _ | .print | .stop => isTrue trivial

theorem onlyZero_step (s : State) (l : Label) (s' : State)
    (h : ∀ t, t ≠ 0 → (s.worker t).rest = none) (ok : OnlyZero s l) (e : step s l = some s') :
    ∀ t, t ≠ 0 → (s'.worker t).rest = none := by
  intro t ht
  cases l with
  | call u c =>
    obtain rfl : u = 0 := ok
    simp only [step] at e
    split_ifs at e
    cases e
    simpa [State.put, ht] using h t ht
  | next u r bt base =>
    obtain rfl : u = 0 := ok
    obtain ⟨p, -, rfl⟩ := Option.map_eq_some_iff.1 e
    unfold State.next
    split <;> simpa [State.put, ht] using h t ht
  | control =>
    simp only [step] at e
    split at e
    · simp at e
    · obtain ⟨ctl, -, rfl⟩ := Option.map_eq_some_iff.1 e
      exact h t ht
  | _ =>
    simp only [step] at e
    split_ifs at e
    cases e
    exact h t ht

/-- A session with one whole call is drained when it stops. -/
theorem lifecycle_safe_session : ∃ s, Lts.run step init (whole (.start params) 14 ++
    .call 0 (.malloc 100) :: goOn 7 ++ whole .stop 9) = some s ∧ s.Safe := by
  obtain ⟨s, e⟩ : ∃ s, Lts.run step init (whole (.start params) 14 ++
      .call 0 (.malloc 100) :: goOn 7 ++ whole .stop 9) = some s :=
    Option.isSome_iff_exists.1 (by decide +kernel)
  refine ⟨s, e, lifecycle_safe (Lts.Along.imp onlyZero_step (fun s l h ok => ?_) (fun _ _ => rfl)
    (by decide +kernel)) e⟩
  cases l with
  | control =>
    intro hd t p hp
    by_cases ht : t = 0
    · subst ht; simp [Option.isNone_iff_eq_none.1 (ok hd)] at hp
    · simp [h t ht] at hp
  | _ => trivial

end Lifecycle

end Raphael
