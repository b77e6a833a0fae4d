/-
  Hooked calls made from inside hooked calls, at any point.

  A thread is a stack of frames: the proxies that run, each with what is left of
  its program, and `Raphael::print` at the bottom of a stack.  While the code of
  an original, the unwinder, an access to the table or `print` runs (`inside`),
  it may call any hooked function, any number of times.

  * `Phase` says what the guard is at every point of a proxy; `Linked` that each
    frame left the guard to the one above as it is at its own point.
  * `reentry_safe`: a proxy returns with the guard it found, and while a thread
    is in the tracking code it does not enter it again.
-/
import Raphael.Proxy
import Raphael.Lib.Lts

namespace Raphael

namespace Reentry

/-! ## Threads -/

/-- The operation runs code that may call hooked functions. -/
def runsCode : HookOp → Bool
  | .origin _ | .unwind | .insert .. | .remove _ => true
  | .test | .setGuard _ | .readLimit | .stackBase => false

/-- The operation is a call of `MemoryCache::insert` or `MemoryCache::remove`. -/
def isAccess : HookOp → Bool
  | .insert .. | .remove _ => true
  | _ => false

/-- Where `Raphael::print` is: before the guard is set, behind that, where it
    runs `clean_cache`, `mCache->print` and `dump_system`, behind these, and
    behind the reset of the guard. -/
inductive Stage
  | entered
  | body
  | closing
  | done
  deriving DecidableEq

inductive Frame
  /-- a proxy that found the guard as `found`: what is left of its program,
      whether the code of its next operation runs, and whether that holds
      `alloc_mutex` -/
  | hook (call : Call) (found : Bool) (prog : Hook Word) (inside locked : Bool)
  /-- `Raphael::print` -/
  | print (stage : Stage) (locked : Bool)

namespace Frame

/-- Code that may call hooked functions runs. -/
def inside : Frame → Bool
  | hook _ _ _ inside _ => inside
  | print stage _ => stage = .body

/-- The frame holds `alloc_mutex`. -/
def locked : Frame → Bool
  | hook _ _ _ _ locked => locked
  | print _ locked => locked

/-- The frame is inside `insert`, `remove` or `print`. -/
def tracking : Frame → Bool
  | hook _ _ (.op o _) inside _ => inside && isAccess o
  | hook _ _ (.ret _) _ _ => false
  | print .. => true

/-- The next step of the frame enters `insert` or `remove`. -/
def atAccess : Frame → Bool
  | hook _ _ (.op o _) inside _ => !inside && isAccess o
  | _ => false

/-- The guard that a proxy found; `print` does not look at it. -/
def found : Frame → Bool
  | hook _ found _ _ _ => found
  | print .. => false

/-- A proxy is about to return. -/
def returning : Frame → Bool
  | hook _ _ (.ret _) _ _ => true
  | _ => false

def isPrint : Frame → Bool
  | print .. => true
  | hook .. => false

end Frame

structure Thread where
  guard : Bool
  frames : List Frame

inductive Label
  /-- the running code calls a hooked function -/
  | call (c : Call)
  /-- `Raphael::print`, as an outermost call -/
  | print
  /-- an operation that runs no code of its own -/
  | step
  /-- the code of the next operation starts -/
  | enter
  /-- it ends, with the answers of its operation -/
  | leave (answer : (o : HookOp) → o.Res)
  | lock
  | unlock
  | ret

/-- An operation that runs no code: the guard and the answer. -/
def perform (g : Configs) (guard : Bool) : (o : HookOp) → Option (Bool × o.Res)
  | .test => some (guard, (g, guard))
  | .setGuard v => some (v, ())
  | .readLimit => some (guard, g.limit)
  | .origin _ | .unwind | .stackBase | .insert .. | .remove _ => none

def exits : Call → Bool
  | .pthreadExit _ => true
  | _ => false

/-- One step of a thread, for the eight proxies that return. -/
def step (g : Configs) (s : Thread) : Label → Option Thread
  | .call c =>
    if !exits c && s.frames.head?.all Frame.inside then
      some { s with frames := .hook c s.guard (proxy c) false false :: s.frames }
    else none
  | .print => if s.frames.isEmpty then some { s with frames := [.print .entered false] } else none
  | .step =>
    match s.frames with
    | .hook c found (.op o k) false locked :: fs =>
      (perform g s.guard o).map fun r => ⟨r.1, .hook c found (k r.2) false locked :: fs⟩
    | .print .entered locked :: fs => some ⟨true, .print .body locked :: fs⟩
    | .print .closing locked :: fs => some ⟨false, .print .done locked :: fs⟩
    | _ => none
  | .enter =>
    match s.frames with
    | .hook c found (.op o k) false locked :: fs =>
      if runsCode o then some { s with frames := .hook c found (.op o k) true locked :: fs } else none
    | _ => none
  | .leave answer =>
    match s.frames with
    | .hook c found (.op o k) true false :: fs =>
      some { s with frames := .hook c found (k (answer o)) false false :: fs }
    | .print .body false :: fs => some { s with frames := .print .closing false :: fs }
    | _ => none
  | .lock =>
    match s.frames with
    | .hook c found (.op o k) true false :: fs =>
      if isAccess o then some { s with frames := .hook c found (.op o k) true true :: fs } else none
    | .print .body false :: fs => some { s with frames := .print .body true :: fs }
    | _ => none
  | .unlock =>
    match s.frames with
    | .hook c found p inside true :: fs =>
      some { s with frames := .hook c found p inside false :: fs }
    | .print stage true :: fs => some { s with frames := .print stage false :: fs }
    | _ => none
  | .ret =>
    match s.frames with
    | .hook _ _ (.ret _) _ _ :: fs => some { s with frames := fs }
    | .print .done _ :: fs => some { s with frames := fs }
    | _ => none

/-- A proxy returns with the guard it found; `insert` and `remove` are entered
    only from a proxy that found the guard 0, and while no other frame is inside
    `insert`, `remove` or `print`; nobody locks what an own frame holds. -/
def Sound (s : Thread) : Label → Prop
  | .ret => ∀ f fs, s.frames = f :: fs → f.returning → s.guard = f.found
  | .enter => ∀ f fs, s.frames = f :: fs → f.atAccess → f.found = false ∧
      ∀ h ∈ fs, h.tracking = false
  | .lock => ∀ f fs, s.frames = f :: fs → f.tracking → ∀ h ∈ fs, h.locked = false
  | _ => True

/-! ## The guard inside a proxy -/

/-- A program that runs with the guard 1, resets it as its last operation and
    does not look at it before. -/
def Closing {α : Type} : Hook α → Prop
  | .ret _ => False
  | .op (.setGuard v) k => v = false ∧ ∃ a, k () = .ret a
  | .op .test _ | .op .stackBase _ => False
  | .op (.origin _) k => ∀ r, Closing (k r)
  | .op .readLimit k => ∀ r, Closing (k r)
  | .op .unwind k => ∀ r, Closing (k r)
  | .op (.insert ..) k => Closing (k ())
  | .op (.remove _) k => Closing (k ())

/-- Behind plain operations. -/
theorem closing_bind {α β : Type} {p : Hook α} (h : p.Each plain) {q : α → Hook β}
    (hq : ∀ a, Closing (q a)) : Closing (p >>= q) := by
  induction p with
  | ret a => exact hq a
  | op o k ih =>
    have ih := fun r => ih r (h.2 r)
    cases o with
    | readLimit | unwind => exact ih
    | insert | remove => exact ih ()
    | test | setGuard | origin | stackBase => exact h.1.elim

theorem closing_rest (c : Call) (r : Word) : Closing (c.rest r) :=
  closing_bind (c.tail_plain r) fun _ => ⟨rfl, r, rfl⟩

/-- What is left of a proxy that found the guard `found`, where it is `guard`. -/
inductive Phase (c : Call) (found guard : Bool) : Hook Word → Prop
  | fresh : guard = found → Phase c found guard (proxy c)
  | through : guard = found → Phase c found guard (Hook.origin c)
  | begin : found = false → guard = false → Phase c found guard c.guarded
  | on {p : Hook Word} : found = false → guard = true → Closing p → Phase c found guard p
  | done (r : Word) : guard = found → Phase c found guard (.ret r)

theorem tracked_guard {c : Call} {g : Configs} {guard : Bool} (h : c.tracked g guard) :
    guard = false := by
  cases c <;> simp_all [Call.tracked]

theorem ne_exit {c : Call} (h : exits c = false) : ∀ v, c ≠ .pthreadExit v := by
  rintro v rfl
  simp [exits] at h

namespace Phase
variable {c : Call} {found guard : Bool} {o : HookOp} {k : o.Res → Hook Word}

/-- An operation that runs no code. -/
theorem perform {g : Configs} {r : Bool × o.Res} (hc : exits c = false)
    (h : Phase c found guard (.op o k)) (e : perform g guard o = some r) :
    Phase c found r.1 (k r.2) := by
  generalize hp : Prog.op o k = p at h
  cases h with
  | fresh hg =>
    rw [proxy_eq (ne_exit hc)] at hp
    cases hp
    obtain rfl := Option.some.inj e
    dsimp only
    split
    · next ht => exact .begin (hg ▸ tracked_guard ht) (tracked_guard ht)
    · exact .through hg
  | through hg =>
    cases hp
    cases e
  | begin hf hg =>
    cases hp
    obtain rfl := Option.some.inj e
    exact .on hf rfl (closing_rest c)
  | on hf hg hcl =>
    subst hp
    cases o with
    | setGuard v =>
      obtain rfl := Option.some.inj e
      obtain ⟨rfl, a, ha⟩ := hcl
      exact ha ▸ .done a hf.symm
    | readLimit =>
      obtain rfl := Option.some.inj e
      exact .on hf hg (hcl _)
    | test | stackBase => exact hcl.elim
    | origin | unwind | insert | remove => cases e
  | done r hg => cases hp

/-- The code of an operation ends. -/
theorem leave (hc : exits c = false) (h : Phase c found guard (.op o k)) (ho : runsCode o)
    (r : o.Res) : Phase c found guard (k r) := by
  generalize hp : Prog.op o k = p at h
  cases h with
  | fresh hg =>
    rw [proxy_eq (ne_exit hc)] at hp
    cases hp
    cases ho
  | through hg =>
    cases hp
    exact .done r hg
  | begin hf hg =>
    cases hp
    cases ho
  | on hf hg hcl =>
    subst hp
    cases o with
    | origin | unwind => exact .on hf hg (hcl r)
    | insert | remove => exact .on hf hg hcl
    | test | setGuard | readLimit | stackBase => cases ho
  | done r hg => cases hp

/-- **An access is made with the guard set by this proxy.** -/
theorem access (hc : exits c = false) (h : Phase c found guard (.op o k)) (ho : isAccess o) :
    found = false ∧ guard = true := by
  generalize hp : Prog.op o k = p at h
  cases h with
  | fresh hg =>
    rw [proxy_eq (ne_exit hc)] at hp
    cases hp
    cases ho
  | through hg =>
    cases hp
    cases ho
  | begin hf hg =>
    cases hp
    cases ho
  | on hf hg hcl => exact ⟨hf, hg⟩
  | done r hg => cases hp

/-- **A proxy returns with the guard it found.** -/
theorem ret {r : Word} (h : Phase c found guard (.ret r)) :
    guard = found := by
  generalize hp : (Prog.ret r : Hook Word) = p at h
  cases h with
  | fresh hg => exact hg
  | through hg => exact hg
  | begin hf hg => cases hp
  | on hf hg hcl =>
    subst hp
    exact hcl.elim
  | done r hg => exact hg

/-- A proxy that found the guard 1 leaves it. -/
theorem passes {p : Hook Word} (h : Phase c found guard p) (hf : found = true) : guard = true := by
  cases h with
  | fresh hg | through hg | done r hg => rw [hg, hf]
  | begin hf' | on hf' =>
    rw [hf] at hf'
    cases hf'

end Phase

/-! ## The stack -/

/-- The frame is where the guard is `guard`. -/
def Frame.At (guard : Bool) : Frame → Prop
  | hook c found p inside locked => exits c = false ∧ Phase c found guard p ∧
      (inside → ∃ o k, p = .op o k ∧ runsCode o) ∧ (locked → (hook c found p inside locked).tracking)
  | print stage _ => stage = .body → guard = true

/-- The frames are linked: each is where the guard is what the one above found,
    with code running that made that call. -/
def Linked (guard : Bool) : List Frame → Prop
  | [] => True
  | f :: fs => f.At guard ∧ (∀ h ∈ fs, h.inside) ∧ (f.isPrint → fs = []) ∧ Linked f.found fs

namespace Linked
variable {guard : Bool} {f : Frame} {fs : List Frame}

/-- What tracks sees the guard 1. -/
theorem tracking_guard (h : f.At guard) (hi : f.inside) (ht : f.tracking) : guard = true := by
  cases f with
  | print stage locked => exact h (by simpa [Frame.inside] using hi)
  | hook c found p inside locked =>
    obtain ⟨hc, hp, -, -⟩ := h
    cases p with
    | ret r => simp [Frame.tracking] at ht
    | op o k =>
      simp only [Frame.tracking, Bool.and_eq_true] at ht
      exact (hp.access hc ht.2).2

/-- **Above a tracking frame all proxies found the guard 1.** -/
theorem found_of_tracking (h : Linked guard (f :: fs)) {t : Frame} (ht : t ∈ fs)
    (htr : t.tracking) : f.found = true := by
  induction fs generalizing f guard with
  | nil => simp at ht
  | cons f' fs ih =>
    obtain ⟨-, hin, -, hl⟩ := h
    have hat := hl.1
    rcases List.mem_cons.1 ht with rfl | ht
    · exact tracking_guard hat (hin _ List.mem_cons_self) htr
    · have hf' := ih hl ht
      cases f' with
      | print => simp [Frame.found] at hf'
      | hook c found p inside locked => exact hat.2.1.passes hf'

/-- The top frame goes on. -/
theorem top (h : Linked guard (f :: fs)) {guard' : Bool} {f' : Frame} (hat : f'.At guard')
    (hf : f'.found = f.found) (hp : f'.isPrint = f.isPrint) : Linked guard' (f' :: fs) :=
  ⟨hat, h.2.1, hp ▸ h.2.2.1, hf ▸ h.2.2.2⟩

end Linked

section hooks
variable {c : Call} {found guard : Bool} {locked : Bool}

/-- A proxy that runs no other code holds no lock. -/
theorem Frame.At.unlocked {o : HookOp} {k : o.Res → Hook Word}
    (h : (Frame.hook c found (.op o k) false locked).At guard) : ¬ locked :=
  fun hlocked => by simpa [Frame.tracking] using h.2.2.2 hlocked

/-- A proxy that is entered. -/
theorem Frame.at_call (hc : exits c = false) (guard : Bool) :
    (Frame.hook c guard (proxy c) false false).At guard :=
  ⟨hc, .fresh rfl, by simp, by simp⟩

/-- An operation that runs no code. -/
theorem Frame.At.perform {g : Configs} {o : HookOp} {k : o.Res → Hook Word}
    (h : (Frame.hook c found (.op o k) false locked).At guard) {r : Bool × o.Res}
    (e : Reentry.perform g guard o = some r) : (Frame.hook c found (k r.2) false locked).At r.1 :=
  ⟨h.1, h.2.1.perform h.1 e, by simp, fun hlocked => absurd hlocked h.unlocked⟩

/-- The code of an operation starts. -/
theorem Frame.At.enter {o : HookOp} {k : o.Res → Hook Word}
    (h : (Frame.hook c found (.op o k) false locked).At guard) (ho : runsCode o) :
    (Frame.hook c found (.op o k) true locked).At guard :=
  ⟨h.1, h.2.1, fun _ => ⟨o, k, rfl, ho⟩, fun hlocked => absurd hlocked h.unlocked⟩

/-- The code of an operation ends. -/
theorem Frame.At.leave {o : HookOp} {k : o.Res → Hook Word}
    (h : (Frame.hook c found (.op o k) true false).At guard) (r : o.Res) :
    (Frame.hook c found (k r) false false).At guard := by
  obtain ⟨hc, hp, hin, -⟩ := h
  obtain ⟨o', k', ho', hruns⟩ := hin rfl
  cases ho'
  exact ⟨hc, hp.leave hc hruns _, by simp, by simp⟩

end hooks

theorem step_linked (g : Configs) {s s' : Thread} {l : Label} (h : Linked s.guard s.frames)
    (e : step g s l = some s') : Linked s'.guard s'.frames := by
  obtain ⟨guard, frames⟩ := s
  cases l with
  | call c =>
    simp only [step, Option.ite_none_right_eq_some, Option.some.injEq, Bool.and_eq_true,
      Bool.not_eq_true'] at e
    obtain ⟨⟨hc, hin⟩, rfl⟩ := e
    refine ⟨Frame.at_call hc guard, ?_, by simp [Frame.isPrint], h⟩
    -- the frames below have run code since the frame above them came
    cases frames with
    | nil => simp
    | cons f fs => exact List.forall_mem_cons.2 ⟨by simpa using hin, h.2.1⟩
  | print =>
    obtain ⟨-, rfl⟩ := Lts.of_guard e
    exact ⟨by simp [Frame.At], by simp, fun _ => rfl, trivial⟩
  | step =>
    simp only [step] at e
    split at e
    · next c found o k locked fs =>
      obtain ⟨r, hr, rfl⟩ := Option.map_eq_some_iff.1 e
      exact h.top (h.1.perform hr) rfl rfl
    · cases e
      exact h.top (fun _ => rfl) rfl rfl
    · cases e
      exact h.top (by simp [Frame.At]) rfl rfl
    · cases e
  | enter =>
    simp only [step] at e
    split at e
    · next c found o k locked fs =>
      obtain ⟨ho, rfl⟩ := Lts.of_guard e
      exact h.top (h.1.enter ho) rfl rfl
    · cases e
  | leave answer =>
    simp only [step] at e
    split at e
    · next c found o k fs =>
      cases e
      exact h.top (h.1.leave _) rfl rfl
    · cases e
      exact h.top (by simp [Frame.At]) rfl rfl
    · cases e
  | lock =>
    simp only [step] at e
    split at e
    · next c found o k fs =>
      obtain ⟨ho, rfl⟩ := Lts.of_guard e
      obtain ⟨hc, hp, hin, -⟩ := h.1
      exact h.top ⟨hc, hp, hin, fun _ => ho⟩ rfl rfl
    · cases e
      exact h.top h.1 rfl rfl
    · cases e
  | unlock =>
    simp only [step] at e
    split at e
    · next c found p inside fs =>
      cases e
      obtain ⟨hc, hp, hin, -⟩ := h.1
      exact h.top ⟨hc, hp, hin, by simp⟩ rfl rfl
    · cases e
      exact h.top h.1 rfl rfl
    · cases e
  | ret =>
    simp only [step] at e
    split at e
    · next c found r inside locked fs =>
      cases e
      have hg := h.1.2.1.ret
      simp only at hg
      exact hg ▸ h.2.2.2
    · next locked fs =>
      cases e
      obtain rfl := h.2.2.1 rfl
      trivial
    · cases e

/-! ## Runs -/

namespace Linked
variable {guard : Bool} {f : Frame} {fs : List Frame}

/-- A frame that holds the lock tracks. -/
theorem locked_tracking (h : Linked guard fs) {t : Frame} (ht : t ∈ fs) (hl : t.locked) :
    t.tracking := by
  induction fs generalizing guard with
  | nil => simp at ht
  | cons f fs ih =>
    rcases List.mem_cons.1 ht with rfl | ht
    · cases t with
      | print => rfl
      | hook c found p inside locked => exact h.1.2.2.2 hl
    · exact ih h.2.2.2 ht

/-- The proxy that makes an access found the guard 0. -/
theorem access_found (h : f.At guard) (hp : f.isPrint = false) (ht : f.tracking ∨ f.atAccess) :
    f.found = false := by
  cases f with
  | print => cases hp
  | hook c found p inside locked =>
    cases p with
    | ret r => simp [Frame.tracking, Frame.atAccess] at ht
    | op o k =>
      have ho : isAccess o := by
        simp only [Frame.tracking, Frame.atAccess, Bool.and_eq_true] at ht
        rcases ht with ht | ht
        · exact ht.2
        · exact ht.2
      exact (h.2.1.access h.1 ho).1

/-- **Below an access nothing tracks.** -/
theorem below_access (h : Linked guard (f :: fs)) (hf : f.tracking ∨ f.atAccess) :
    ∀ t ∈ fs, t.tracking = false := by
  intro t ht
  cases hp : f.isPrint with
  | true => simp [h.2.2.1 hp] at ht
  | false =>
    have hfound := access_found h.1 hp hf
    by_contra htr
    have := h.found_of_tracking ht (by simpa using htr)
    simp [hfound] at this

/-- **At most one frame is inside `insert`, `remove` or `print`.** -/
theorem tracking_le (h : Linked guard fs) : (fs.filter Frame.tracking).length ≤ 1 := by
  induction fs generalizing guard with
  | nil => simp
  | cons f fs ih =>
    by_cases hf : f.tracking
    · rw [List.filter_cons_of_pos hf,
        List.filter_eq_nil_iff.2 (by simpa using h.below_access (.inl hf))]
      simp
    · rw [List.filter_cons_of_neg hf]
      exact ih h.2.2.2

end Linked

theorem sound_of_linked {s : Thread} (h : Linked s.guard s.frames) (l : Label) : Sound s l := by
  cases l with
  | enter =>
    intro f fs hs hacc
    rw [hs] at h
    refine ⟨Linked.access_found h.1 ?_ (.inr hacc), h.below_access (.inr hacc)⟩
    cases f with
    | print => cases hacc
    | hook => rfl
  | lock =>
    intro f fs hs htr t ht
    rw [hs] at h
    by_contra hl
    have htrack := h.2.2.2.locked_tracking ht (by simpa using hl)
    simp [h.below_access (.inl htr) t ht] at htrack
  | ret =>
    intro f fs hs hret
    rw [hs] at h
    cases f with
    | print => cases hret
    | hook c found p inside locked =>
      cases p with
      | op o k => cases hret
      | ret r => exact h.1.2.1.ret
  | call | print | step | leave | unlock => trivial

/-- **A thread does not track itself.**  Whatever the guard is at first, and
    whatever code calls hooked functions wherever: every proxy returns with the
    guard it found, `insert` and `remove` are entered only from proxies that
    found the guard 0 and never from inside `insert`, `remove` or `print`, and no
    frame locks `alloc_mutex` while another one of the thread holds it. -/
theorem reentry_safe (g : Configs) (guard : Bool) (ls : List Label) :
    Lts.Along (step g) Sound ⟨guard, []⟩ ls ∧
      ∀ s, Lts.run (step g) ⟨guard, []⟩ ls = some s →
        (s.frames.filter Frame.tracking).length ≤ 1 := by
  have hstep : ∀ (s : Thread) (l : Label) (s' : Thread), Linked s.guard s.frames → True →
      step g s l = some s' → Linked s'.guard s'.frames := fun s l s' h _ e => step_linked g h e
  have hall : Lts.Along (step g) (fun _ _ => True) ⟨guard, []⟩ ls :=
    Lts.Along.of_forall (p := fun _ => True) (fun _ _ => trivial) _
  have hinit : Linked guard [] := trivial
  refine ⟨Lts.Along.imp hstep (fun s l h _ => sound_of_linked h l) hinit hall, fun s hs => ?_⟩
  exact (Lts.run_inv hstep hinit hall hs).tracking_le

/-- Answers for every operation. -/
def answer : (o : HookOp) → o.Res
  | .test => (.both, false)
  | .setGuard _ | .insert .. | .remove _ => ()
  | .readLimit => 1024
  | .origin _ => 0x7000
  | .unwind => ⟨3, fun _ => 7⟩
  | .stackBase => none

/-- The logger frees a block inside `insert`, with the lock held. -/
example : ((Lts.run (step .both) ⟨false, []⟩ [.call (.malloc 2048), .step, .step, .enter,
    .leave answer, .enter, .leave answer, .enter, .lock, .call (.free 8), .step]).map
      fun s => s.frames.map Frame.found) = some [true, false] := by
  decide

end Reentry

end Raphael
