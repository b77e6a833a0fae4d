/-
  One thread: calls of the hooked functions, run one after another, each inside
  the original of another where the library calls itself.

  A run is a list of call trees.  What the environment answers (the results, the
  backtraces, the stack bases) is part of the tree.  The run tells what happens
  as `Event`s to an observer, whose state is not used by the code.

  * `exec_node`: what a call does, by its entry test.
-/
import Raphael.Cache
import Raphael.Client

namespace Raphael

/-- What the environment answers during a call. -/
structure Answers where
  result : Word
  backtrace : Backtrace
  stackBase : Option Word

/-- The unwinder stayed inside the array of the backtrace. -/
def Answers.Fits (ans : Answers) : Prop := ans.backtrace.depth.toNat ≤ maxTraceDepth

/-- Only the result matters. -/
def Answers.of (r : Word) : Answers := ⟨r, ⟨3, fun _ => 7⟩, none⟩

theorem Answers.fits_of (r : Word) : (Answers.of r).Fits := show 3 ≤ 16 by decide

/-- A call, with the calls that its original makes. -/
inductive CallTree
  | node (call : Call) (answers : Answers) (nested : List CallTree)

/-- A call whose original makes no calls. -/
abbrev CallTree.leaf (call : Call) (answers : Answers) : CallTree := .node call answers []

/-- What an observer of the run sees. -/
inductive Event
  /-- the call sets the guard; its original will return `r` -/
  | hold (call : Call) (r : Word)
  /-- an original returned `r` -/
  | returned (call : Call) (r : Word)
  /-- the call inserted, or found the pool `full` -/
  | insert (call : Call) (address : Word) (backtrace : Backtrace) (full : Bool)
  | remove (address : Word)
  /-- the guard is reset -/
  | letGo

/-- The table, the guard of the thread and what the observer keeps. -/
structure Seq (γ : Type) where
  cache : MemoryCache
  guard : Bool
  ghost : γ

section
variable {γ : Type} (g : Configs) (observe : Event → γ → γ)

namespace Seq

def note (e : Event) (s : Seq γ) : Seq γ := { s with ghost := observe e s.ghost }

/-- An operation of the proxy of `c`; the calls that the original makes are run
    by `nested`.  A thread does not return from `pthread_exit`. -/
def perform (c : Call) (ans : Answers) (nested : Seq γ → Option (Seq γ)) :
    (o : HookOp) → Seq γ → Option (Seq γ × o.Res)
  | .test, s => some (s, (g, s.guard))
  | .setGuard v, s =>
    some (note observe (if v then .hold c ans.result else .letGo) { s with guard := v }, ())
  | .readLimit, s => some (s, g.limit)
  | .origin (.pthreadExit _), _ => none
  | .origin c, s => (nested s).map fun s => (s.note observe (.returned c ans.result), ans.result)
  | .unwind, s => some (s, ans.backtrace)
  | .stackBase, s => some (s, ans.stackBase)
  | .insert a n bt, s => (s.cache.insert a n bt).map fun cache =>
    (note observe (.insert c a bt s.cache.full) { s with cache := cache }, ())
  | .remove a, s => (s.cache.remove a).map fun cache =>
    (note observe (.remove a) { s with cache := cache }, ())

end Seq

mutual

/-- Run a call tree. -/
def exec : CallTree → Seq γ → Option (Seq γ)
  | .node c ans nested, s =>
    ((proxy c).exec (Seq.perform g observe c ans (execAll nested)) s).map Prod.fst

/-- Run calls one after another. -/
def execAll : List CallTree → Seq γ → Option (Seq γ)
  | [], s => some s
  | t :: ts, s => (exec t s).bind (execAll ts)

end

variable {g observe} {c : Call} {ans : Answers} {nested : List CallTree}

/-- An access to the table, made by the proxy of `c`. -/
def Seq.access (observe : Event → γ → γ) (c : Call) (s : Seq γ) : Act → Option (Seq γ)
  | .insert a n bt => (s.cache.insert a n bt).map fun cache =>
    note observe (.insert c a bt s.cache.full) { s with cache := cache }
  | .remove a => (s.cache.remove a).map fun cache =>
    note observe (.remove a) { s with cache := cache }

/-- An access, on the table alone. -/
def Act.run (cache : MemoryCache) : Act → Option MemoryCache
  | .insert a n bt => cache.insert a n bt
  | .remove a => cache.remove a

theorem accesses_cache (l : List Act) (s : Seq γ) :
    (l.foldlM (Seq.access observe c) s).map Seq.cache = l.foldlM Act.run s.cache := by
  induction l generalizing s with
  | nil => rfl
  | cons a l ih =>
    rw [List.foldlM_cons, List.foldlM_cons]
    cases a with
    | insert a n bt =>
      simp only [Seq.access, Act.run]
      rcases s.cache.insert a n bt with _ | cache
      exacts [rfl, ih _]
    | remove a =>
      simp only [Seq.access, Act.run]
      rcases s.cache.remove a with _ | cache
      exacts [rfl, ih _]

/-- A program that only accesses the table makes its pending accesses. -/
theorem exec_plain {α : Type} (run : Seq γ → Option (Seq γ)) {p : Hook α} (h : p.Each plain)
    (s : Seq γ) : (p.exec (Seq.perform g observe c ans run) s).map Prod.fst =
      (pending g.limit ans.backtrace p).foldlM (Seq.access observe c) s := by
  induction p generalizing s with
  | ret a => rfl
  | op o k ih =>
    have ih := fun a => ih a (h.2 a)
    rw [Prog.exec, Option.map_bind]
    cases o with
    | readLimit | unwind => exact ih _ s
    | insert a n bt =>
      simp only [Seq.perform, pending, List.foldlM_cons, Seq.access]
      rcases s.cache.insert a n bt with _ | cache
      exacts [rfl, ih () _]
    | remove a =>
      simp only [Seq.perform, pending, List.foldlM_cons, Seq.access]
      rcases s.cache.remove a with _ | cache
      exacts [rfl, ih () _]
    | test | setGuard | origin | stackBase => exact h.1.elim

/-- After its original a tracked call makes its accesses and resets the guard. -/
theorem exec_rest (run : Seq γ → Option (Seq γ)) (s : Seq γ) :
    ((c.rest ans.result).exec (Seq.perform g observe c ans run) s).map Prod.fst =
      ((c.acts g.limit ans.backtrace ans.result).foldlM (Seq.access observe c) s).map fun s =>
        Seq.note observe .letGo { s with guard := false } := by
  rw [Call.rest, Prog.exec_bind, ← pending_tail, ← exec_plain run (c.tail_plain _), Option.map_map,
    Option.map_bind]
  exact (Option.map_eq_bind ..).symm

/-- **What a call does**, by its entry test. -/
theorem exec_node (hc : ∀ v, c ≠ .pthreadExit v) (s : Seq γ) :
    exec g observe (.node c ans nested) s =
      if c.tracked g s.guard then
        (execAll g observe nested
          (Seq.note observe (.hold c ans.result) { s with guard := true })).bind
          fun s => ((c.acts g.limit ans.backtrace ans.result).foldlM (Seq.access observe c)
            (s.note observe (.returned c ans.result))).map fun s =>
              Seq.note observe .letGo { s with guard := false }
      else (execAll g observe nested s).map (Seq.note observe (.returned c ans.result)) := by
  have horig : ∀ (run : Seq γ → Option (Seq γ)) (s : Seq γ),
      Seq.perform g observe c ans run (.origin c) s = (run s).map fun s =>
        (s.note observe (.returned c ans.result), ans.result) := by
    intro run s
    cases c <;> first | rfl | exact absurd rfl (hc _)
  rw [exec, proxy_eq hc]
  simp only [Prog.exec, Seq.perform, Option.bind_some]
  split
  · rw [Call.guarded_eq, Prog.exec, Seq.perform, Option.bind_some, Prog.exec, horig,
      Option.bind_map, Option.map_bind]
    congr 1
    funext s'
    exact exec_rest _ _
  · rw [Hook.origin, Prog.exec, horig, Option.bind_map, Option.map_bind, Option.map_eq_bind]
    rfl

/-- A call without nested ones makes its accesses. -/
theorem exec_leaf (hc : ∀ v, c ≠ .pthreadExit v) {s : Seq γ} (hs : s.guard = false) :
    (exec g observe (.leaf c ans) s).map Seq.cache =
      (c.accesses g ans.backtrace ans.result).foldlM Act.run s.cache := by
  rw [exec_node hc, hs, Call.accesses]
  simp only [execAll, Option.bind_some, Option.map_some]
  split
  · rw [Option.map_map]
    exact accesses_cache _ _
  · rfl

/-- A call leaves the guard 0. -/
theorem exec_leaf_guard (hc : ∀ v, c ≠ .pthreadExit v) {s s' : Seq γ} (hs : s.guard = false)
    (e : exec g observe (.leaf c ans) s = some s') : s'.guard = false := by
  rw [exec_node hc] at e
  simp only [execAll, Option.bind_some, Option.map_some] at e
  split at e
  · obtain ⟨s₁, -, rfl⟩ := Option.map_eq_some_iff.1 e
    rfl
  · cases e
    exact hs

end

end Raphael
