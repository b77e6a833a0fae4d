/-
  Sessions that monitor specified libraries (Raphael.cpp, with the hooks of
  PltGotHookProxy.h and HookProxy.h).

  A session with a regex hooks the entries of the libraries that match it, one
  without hooks the functions themselves, and no hook of either kind goes away
  with its session.  The calls of all libraries run against what both kinds
  have left, session after session.

  Each call is made with the guard 0; one made inside the original of a tracked
  call leaves no record.  Nothing is unloaded.

  * `recorded_origin`: what the table holds was inserted in this session.
  * `focused_safe`: the records of a session with a regex stem from libraries
    that match it, provided that no hook that is there when it starts, and none
    that a `dlopen` adds, belongs to others.
-/
import Raphael.Exec
import Raphael.InlineHook
import Raphael.Loader
import Raphael.Store

namespace Raphael

namespace Focus

open Loader InlineHook InlineHook.Image Linked

/-- An insertion: the library that made the call, the call, and what the record
    says. -/
structure Origin where
  library : Library
  call : Call
  address : Word
  frames : List Word
  deriving DecidableEq

/-- The observer of the calls of `lib`. -/
def observe (lib : Library) : Event → List Origin → List Origin
  | .insert c a bt false, seen => ⟨lib, c, a, bt.stored⟩ :: seen
  | _, seen => seen

structure State where
  process : Process
  image : Image
  g : Configs
  cache : MemoryCache
  /-- the session that runs, and its regex -/
  session : Option (Option (List Char))
  /-- the insertions since the last start -/
  origins : List Origin

/-- The row of `sInline` and of `sPltGot` for a call. -/
def fn : Call → Fn
  | .malloc _ => .malloc
  | .calloc .. => .calloc
  | .realloc .. => .realloc
  | .memalign .. => .memalign
  | .free _ => .free
  | .mmap .. => .mmap
  | .mmap64 .. => .mmap64
  | .munmap .. => .munmap
  | .pthreadExit _ => .pthreadExit

inductive Label
  | start (configs : BitVec 32) (regex : Option (List Char))
  | stop
  /-- through a proxy of dlopen -/
  | dlopen (o : Open)
  /-- by other ways -/
  | load (loaded : List Library)
  /-- `lib` calls; `way` is where the call comes through before it returns -/
  | call (lib : Library) (c : Call) (ans : Answers) (way : List Loc)

namespace State

/-- Where a call of `lib` goes: its entries lead to the proxies if hooked. -/
def entry (s : State) (lib : Library) (c : Call) : Loc :=
  if lib ∈ s.process.hooks.allocs then .proxy (fn c) else .entry (s.image.symbol (fn c))

/-- `Raphael::start`.  While the hooks are installed both modes are off. -/
def start (env : Platform) (s : State) (configs : BitVec 32) (regex : Option (List Char)) :
    State where
  process := match regex with
    | some pattern => s.process.register env pattern
    | none => s.process
  image := match regex with
    | some _ => s.image
    | none => s.image.start
  g := Configs.ofParams configs
  cache := MemoryCache.blank.reset
  session := some regex
  origins := []

/-- `Raphael::stop` -/
def stop (s : State) : State :=
  { s with g := Configs.ofParams 0, image := s.image.stop, session := none }

/-- A call of `lib` that comes through `way`. -/
def call (s : State) (lib : Library) (c : Call) (ans : Answers) (way : List Loc) :
    Option State :=
  if way.any isProxy then
    (exec s.g (observe lib) (.leaf c ans) ⟨s.cache, false, s.origins⟩).map fun q =>
      { s with cache := q.cache, origins := q.ghost }
  else some s

def step (env : Platform) (s : State) : Label → Option State
  | .start configs regex => if s.session.isNone then some (s.start env configs regex) else none
  | .stop => if s.session.isSome then some s.stop else none
  | .dlopen o =>
    if s.process.hooks.loads.isEmpty then none
    else (Loader.step env s.process o).map fun process => { s with process := process }
  | .load loaded =>
    if s.process.loaded.all (· ∈ loaded) then
      some { s with process := { s.process with loaded := loaded } }
    else none
  | .call lib c ans way =>
    if lib ∈ s.process.loaded ∧ Path s.image.next (some (s.entry lib c)) way then
      s.call lib c ans way
    else none

/-- Before the first session. -/
def init (symbol : Fn → Word) (loaded : List Library) : State :=
  ⟨⟨.none, loaded⟩, .initial symbol, Configs.ofParams 0, .blank, none, []⟩

end State

/-- The pattern compiles and matches the path. -/
def Matches (env : Platform) (pattern path : List Char) : Prop :=
  ∃ regex, env.regcomp pattern = some regex ∧ regex path

/-- In a session with a regex all records stem from libraries that match it. -/
def Focused (env : Platform) (s : State) : Prop :=
  ∀ pattern, s.session = some (some pattern) → ∀ o ∈ s.origins, Matches env pattern o.library.path

/-- A session with a regex starts while no function is patched, its regex
    compiles, and the libraries hooked so far match it; and so does the library
    that is hooked behind a `dlopen` during the session. -/
def Clean (env : Platform) (s : State) : Label → Prop
  | .start _ (some pattern) => s.image = .initial s.image.symbol ∧
      (∃ regex, env.regcomp pattern = some regex) ∧
      ∀ l ∈ s.process.hooks.allocs, Matches env pattern l.path
  | .dlopen o => ∀ pattern, s.session = some (some pattern) → ∀ name l, o.filename = some name →
      isSoName name → s.process.hooks.accepts name →
      firstHit (prettyName name) o.loaded = some l → Matches env pattern l.path
  | _ => True

/-! ## A call -/

section calls
variable {g : Configs} {lib : Library} {c : Call} {ans : Answers} {q q' : Seq (List Origin)}

/-- What every operation of the proxy keeps, the call keeps. -/
theorem exec_leaf_inv {I : Seq (List Origin) → Prop}
    (hop : ∀ o q q' r, I q → Seq.perform g (observe lib) c ans (execAll g (observe lib) []) o q =
      some (q', r) → I q')
    (hi : I q) (e : exec g (observe lib) (.leaf c ans) q = some q') : I q' := by
  rw [exec] at e
  obtain ⟨⟨q₁, r⟩, e₁, rfl⟩ := Option.map_eq_some_iff.1 e
  exact Prog.exec_inv hop (proxy c) hi e₁

/-- The table holds no record that is not among the origins. -/
def Recorded (q : Seq (List Origin)) : Prop :=
  q.cache.Wf ∧ ∀ a, ∀ r ∈ q.cache.held a, ∃ o ∈ q.ghost, o.address = r.addr ∧ o.frames = r.frames

/-- An operation of a proxy: the table stays recorded, and what is new among the
    origins is of this library. -/
theorem perform_spec {o : HookOp} {r : o.Res} {seen : List Origin}
    (h : Recorded q ∧ ∀ x ∈ q.ghost, x ∈ seen ∨ x.library = lib)
    (e : Seq.perform g (observe lib) c ans (execAll g (observe lib) []) o q = some (q', r)) :
    Recorded q' ∧ ∀ x ∈ q'.ghost, x ∈ seen ∨ x.library = lib := by
  obtain ⟨⟨hwf, hheld⟩, hseen⟩ := h
  cases o with
  | test | readLimit | unwind | stackBase =>
    cases e
    exact ⟨⟨hwf, hheld⟩, hseen⟩
  | setGuard v =>
    cases e
    cases v <;> exact ⟨⟨hwf, hheld⟩, hseen⟩
  | origin c' =>
    cases c' with
    | pthreadExit => cases e
    | _ =>
      cases e
      exact ⟨⟨hwf, hheld⟩, hseen⟩
  | insert a n bt =>
    simp only [Seq.perform, Option.map_eq_some_iff, Prod.mk.injEq] at e
    obtain ⟨cache, ec, rfl, -⟩ := e
    cases hf : q.cache.full with
    | true =>
      rw [hwf.insert_of_full hf ec]
      exact ⟨⟨hwf, hheld⟩, hseen⟩
    | false =>
      obtain ⟨hwf', hheld'⟩ := hwf.held_insert hf ec
      refine ⟨⟨hwf', fun b x hx => ?_⟩, List.forall_mem_cons.2 ⟨Or.inr rfl, hseen⟩⟩
      simp only [Seq.note, hheld'] at hx
      split_ifs at hx with hb
      · rcases List.mem_cons.1 hx with rfl | hx
        · exact ⟨_, List.mem_cons_self, rfl, rfl⟩
        · obtain ⟨o, ho, hox⟩ := hheld b x hx
          exact ⟨o, List.mem_cons_of_mem _ ho, hox⟩
      · obtain ⟨o, ho, hox⟩ := hheld b x hx
        exact ⟨o, List.mem_cons_of_mem _ ho, hox⟩
  | remove a =>
    simp only [Seq.perform, Option.map_eq_some_iff, Prod.mk.injEq] at e
    obtain ⟨cache, ec, rfl, -⟩ := e
    obtain ⟨hwf', hheld'⟩ := hwf.held_remove ec
    refine ⟨⟨hwf', fun b x hx => hheld b x ?_⟩, hseen⟩
    simp only [Seq.note, hheld'] at hx
    split_ifs at hx
    · exact List.mem_of_mem_tail hx
    · exact hx

/-- **A call** inserts records of its own library. -/
theorem call_spec {s s' : State} {way : List Loc} (h : Recorded ⟨s.cache, false, s.origins⟩)
    (e : s.call lib c ans way = some s') :
    Recorded ⟨s'.cache, false, s'.origins⟩ ∧
      (∀ x ∈ s'.origins, x ∈ s.origins ∨ x.library = lib ∧ way.any isProxy) ∧
      s'.process = s.process ∧ s'.image = s.image ∧ s'.session = s.session := by
  unfold State.call at e
  split_ifs at e with hway
  · obtain ⟨q, eq, rfl⟩ := Option.map_eq_some_iff.1 e
    obtain ⟨hr, hx⟩ := @exec_leaf_inv s.g lib c ans _ q
      (fun q => Recorded q ∧ ∀ x ∈ q.ghost, x ∈ s.origins ∨ x.library = lib)
      (fun _ _ _ _ hi e => perform_spec hi e) ⟨h, fun x hx => Or.inl hx⟩ eq
    exact ⟨hr, fun x hmem => (hx x hmem).imp_right fun hl => ⟨hl, hway⟩, rfl, rfl, rfl⟩
  · cases e
    exact ⟨h, fun x hx => Or.inl hx, rfl, rfl, rfl⟩

end calls

/-! ## Runs -/

section runs
variable {env : Platform} {s s' : State}

theorem recorded_reset : Recorded ⟨MemoryCache.blank.reset, false, []⟩ := by
  refine ⟨MemoryCache.Wf.reset rfl, fun a r hr => ?_⟩
  rw [MemoryCache.Wf.held_reset rfl] at hr
  cases hr

theorem step_recorded (s : State) (l : Label) (s' : State)
    (h : Recorded ⟨s.cache, false, s.origins⟩) (e : s.step env l = some s') :
    Recorded ⟨s'.cache, false, s'.origins⟩ := by
  cases l with
  | start configs regex =>
    obtain ⟨-, rfl⟩ := Lts.of_guard e
    exact recorded_reset
  | stop =>
    obtain ⟨-, rfl⟩ := Lts.of_guard e
    exact h
  | dlopen o =>
    simp only [State.step, Option.ite_none_left_eq_some] at e
    obtain ⟨process, -, rfl⟩ := Option.map_eq_some_iff.1 e.2
    exact h
  | load loaded =>
    obtain ⟨-, rfl⟩ := Lts.of_guard e
    exact h
  | call lib c ans way =>
    simp only [State.step, Option.ite_none_right_eq_some] at e
    exact (call_spec h e.2).1

/-- **The table holds nothing but what this session inserted.** -/
theorem recorded_origin {symbol : Fn → Word} {loaded : List Library} {ls : List Label}
    (h : Lts.run (State.step env) (State.init symbol loaded) ls = some s) (a : Word) :
    ∀ r ∈ s.cache.held a, ∃ o ∈ s.origins, o.address = r.addr ∧ o.frames = r.frames := by
  have hall : Lts.Along (State.step env) (fun _ _ => True) (State.init symbol loaded) ls :=
    Lts.Along.of_forall (fun _ _ => trivial) _
  have hinit : Recorded ⟨(State.init symbol loaded).cache, false, (State.init symbol loaded).origins⟩ :=
    recorded_reset
  exact (Lts.run_inv (fun s l s' hi _ e => step_recorded s l s' hi e) hinit hall h).2 a

/-- What holds between the steps: in a session with a regex no function is
    patched, and the hooked libraries match, as do the origins. -/
structure Inv (env : Platform) (s : State) : Prop where
  recorded : Recorded ⟨s.cache, false, s.origins⟩
  image : ∀ pattern, s.session = some (some pattern) → s.image = .initial s.image.symbol
  hooked : ∀ pattern, s.session = some (some pattern) →
    ∀ l ∈ s.process.hooks.allocs, Matches env pattern l.path
  focused : Focused env s

/-- In an unpatched process only the calls of hooked libraries come to a proxy. -/
theorem initial_way {lib : Library} {c : Call} {way : List Loc}
    (hlib : lib ∉ s.process.hooks.allocs) (hm : s.image = .initial s.image.symbol)
    (hway : Path s.image.next (some (s.entry lib c)) way) : way.any isProxy = false := by
  rw [State.entry, if_neg hlib, hm, path_some] at hway
  obtain ⟨rest, rfl, hrest⟩ := hway
  obtain rfl := path_none.1 hrest
  rfl

theorem start_inv {configs : BitVec 32} {regex : Option (List Char)}
    (hok : Clean env s (.start configs regex)) : Inv env (s.start env configs regex) := by
  refine ⟨recorded_reset, ?_, ?_, fun _ _ o ho => by cases ho⟩
  · rintro pattern hs
    obtain rfl := Option.some.inj hs
    exact hok.1
  · rintro pattern hs l hl
    obtain rfl := Option.some.inj hs
    obtain ⟨-, ⟨regex, hc⟩, hold⟩ := hok
    rcases ((register_spec hc).2 l).1 hl with h | ⟨-, -, h⟩
    · exact hold l h
    · exact ⟨regex, hc, h⟩

theorem dlopen_inv {o : Open} {process : Process} (hi : Inv env s) (hok : Clean env s (.dlopen o))
    (e : Loader.step env s.process o = some process) :
    Inv env { s with process := process } := by
  unfold Loader.step at e
  split_ifs at e with hopen
  obtain rfl := Option.some.inj e
  rw [Bool.and_eq_true] at hopen
  refine ⟨hi.recorded, hi.image, fun pattern hs l hl => ?_, hi.focused⟩
  rcases ((run_spec hopen.1).2 l).1 hl with h | ⟨name, hname, hso, hacc, hhit⟩
  · exact hi.hooked pattern hs l h
  · exact hok pattern hs name l hname hso hacc hhit

theorem step_focused (s : State) (l : Label) (s' : State) (hi : Inv env s) (hok : Clean env s l)
    (e : s.step env l = some s') : Inv env s' := by
  have hr := step_recorded s l s' hi.recorded e
  cases l with
  | start configs regex =>
    obtain ⟨-, rfl⟩ := Lts.of_guard e
    exact start_inv hok
  | stop =>
    obtain ⟨-, rfl⟩ := Lts.of_guard e
    exact ⟨hr, nofun, nofun, nofun⟩
  | dlopen o =>
    simp only [State.step, Option.ite_none_left_eq_some] at e
    obtain ⟨process, hopen, rfl⟩ := Option.map_eq_some_iff.1 e.2
    exact dlopen_inv hi hok hopen
  | load loaded =>
    obtain ⟨-, rfl⟩ := Lts.of_guard e
    exact ⟨hr, hi.image, hi.hooked, hi.focused⟩
  | call lib c ans way =>
    simp only [State.step, Option.ite_none_right_eq_some] at e
    obtain ⟨⟨-, hway⟩, e⟩ := e
    obtain ⟨-, horig, hp, hm, hs⟩ := call_spec hi.recorded e
    refine ⟨hr, ?_, ?_, ?_⟩
    · rw [hs, hm]
      exact hi.image
    · rw [hs, hp]
      exact hi.hooked
    · intro pattern hpat o ho
      rw [hs] at hpat
      rcases horig o ho with h | ⟨rfl, hany⟩
      · exact hi.focused pattern hpat o h
      · by_contra hno
        have hlib : o.library ∉ s.process.hooks.allocs :=
          fun h => hno (hi.hooked pattern hpat _ h)
        rw [initial_way hlib (hi.image pattern hpat) hway] at hany
        cases hany

theorem init_inv (symbol : Fn → Word) (loaded : List Library) : Inv env (State.init symbol loaded) where
  recorded := recorded_reset
  image _ h := by cases h
  hooked _ h := by cases h
  focused _ h := by cases h

/-- **Sessions keep to their libraries.**  In every run whose starts and dlopens
    are `Clean`, each record of a session with a regex stems from a library that
    matches it. -/
theorem focused_safe {symbol : Fn → Word} {loaded : List Library} {ls : List Label}
    (hok : Lts.Along (State.step env) (Clean env) (State.init symbol loaded) ls)
    (h : Lts.run (State.step env) (State.init symbol loaded) ls = some s) : Focused env s :=
  (Lts.run_inv step_focused (init_inv symbol loaded) hok h).focused

end runs

/-! ## Two sessions -/

/-- A device of the API level 29, and patterns without special characters. -/
def device : Platform := ⟨29, fun pattern => some fun name => pattern <:+: name, false⟩

/-- `0x00400000`: the allocator mode, from 0 bytes on. -/
def configs : BitVec 32 := 0x00400000

/-- `malloc(100)` of a library, which returns `a`. -/
def mallocBy (lib : Library) (a : Word) : List Loc → Label := .call lib (.malloc 100) (.of a)

/-- A session for a.so, where b.so calls, too, and one for both, where both
    call. -/
def widened : List Label :=
  [.start configs (some ['a', '.', 's', 'o']),
    mallocBy libA 0x5000 [.proxy .malloc, .entry 0x1000], mallocBy libB 0x6000 [.entry 0x1000],
    .stop, .start configs (some ['.', 's', 'o']),
    mallocBy libB 0x7000 [.proxy .malloc, .entry 0x1000],
    mallocBy libA 0x8000 [.proxy .malloc, .entry 0x1000]]

/-- A session for the whole process, and one for a.so, where b.so calls. -/
def twoSessions : List Label :=
  [.start configs none, .stop, .start configs (some ['a', '.', 's', 'o']),
    mallocBy libB 0x5000 [.entry 0x1000, .proxy .malloc, .trampoline 0]]

/-- `Clean` on the device, tested in a run that patches no function and opens no
    library. -/
def narrow (s : State) : Label → Bool
  | .start _ regex => regex.any fun pattern => s.process.hooks.allocs.all (pattern <:+: ·.path)
  | .dlopen _ => false
  | _ => true

theorem narrow_image {s s' : State} {l : Label} (hn : narrow s l) (e : s.step device l = some s') :
    s'.image = s.image := by
  cases l with
  | start _ regex =>
    obtain ⟨-, rfl⟩ := Lts.of_guard e
    cases regex with
    | none => cases hn
    | some => rfl
  | stop =>
    obtain ⟨-, rfl⟩ := Lts.of_guard e
    rfl
  | dlopen => cases hn
  | load =>
    obtain ⟨-, rfl⟩ := Lts.of_guard e
    rfl
  | call lib c ans way =>
    simp only [State.step, Option.ite_none_right_eq_some] at e
    obtain ⟨-, e⟩ := e
    unfold State.call at e
    split_ifs at e
    · obtain ⟨q, -, rfl⟩ := Option.map_eq_some_iff.1 e
      rfl
    · cases e
      rfl

theorem narrow_clean {symbol : Fn → Word} {s : State} {l : Label}
    (hi : s.image = .initial symbol) (hn : narrow s l) : Clean device s l := by
  cases l with
  | start _ regex =>
    cases regex with
    | none => trivial
    | some pattern =>
      refine ⟨by rw [hi]; rfl, ⟨_, rfl⟩, fun l hl => ⟨_, rfl, ?_⟩⟩
      exact List.all_eq_true.1 hn l hl
  | dlopen => cases hn
  | _ => trivial

theorem clean_widened : Lts.Along (State.step device) (Clean device)
    (State.init apart [libA, libB]) widened := by
  have hstep : ∀ s l s', s.image = .initial apart → narrow s l → s.step device l = some s' →
      s'.image = .initial apart :=
    fun s l s' hi hn e => (narrow_image hn e).trans hi
  exact Lts.Along.imp hstep (fun s l hi hn => narrow_clean hi hn) rfl (by decide +kernel)

theorem focused_widened : ∃ s, Lts.run (State.step device) (State.init apart [libA, libB])
    widened = some s ∧ s.session = some (some ['.', 's', 'o']) ∧
      s.origins.map Origin.library = [libA, libB] ∧ Focused device s := by
  obtain ⟨s, e, hs⟩ : ∃ s, Lts.run (State.step device) (State.init apart [libA, libB]) widened =
      some s ∧ (s.session, s.origins.map Origin.library) =
        (some (some ['.', 's', 'o']), [libA, libB]) :=
    Option.map_eq_some_iff.1 (by decide +kernel)
  obtain ⟨hsession, horigins⟩ := Prod.mk.inj hs
  exact ⟨s, e, hsession, horigins, focused_safe clean_widened e⟩

/-- **The patches of an earlier session record for a later one.** -/
theorem unfocused_twoSessions : ¬ ∀ ls s,
    Lts.run (State.step device) (State.init apart [libA, libB]) ls = some s → Focused device s := by
  intro h
  obtain ⟨s, e, hs⟩ : ∃ s, Lts.run (State.step device) (State.init apart [libA, libB]) twoSessions =
      some s ∧ (s.session, s.origins.map Origin.library) =
        (some (some ['a', '.', 's', 'o']), [libB]) :=
    Option.map_eq_some_iff.1 (by decide +kernel)
  simp only [Prod.mk.injEq] at hs
  obtain ⟨o, ho, hlib⟩ : ∃ o ∈ s.origins, o.library = libB :=
    List.mem_map.1 (by rw [hs.2]; exact List.mem_singleton_self _)
  obtain ⟨regex, hc, hm⟩ := h twoSessions s e _ hs.1 o ho
  cases hc
  rw [hlib] at hm
  exact absurd hm (by decide)

end Focus

end Raphael
