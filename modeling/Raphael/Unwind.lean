/-
  Capturing a backtrace: the frame walk `unwind_backtrace` (backtrace_64.cpp,
  backtrace_64.h) and `insert_memory_backtrace` (HookProxy.h).

  The stack is whatever memory the walk finds at the addresses it reads, and
  the array it fills has any contents before.  A write outside the array makes
  the walk fail.

  * `returns` are the return addresses along the chain of frames, `collapse`
    drops the repeated ones: the walk writes the first `maxDepth` of them
    (`unwindLoop_eq`), so it stays inside an array of `n` slots iff
    `min maxDepth (entries s).length ≤ n` (`unwindBacktrace_isSome`);
  * `insert_memory_backtrace` asks for `depth + 1` entries of 16 slots, where
    the depth field of the configuration word goes up to 31
    (`inside_iff`, `outside_deep`).
-/
import Raphael.Report
import Mathlib.Data.List.Destutter

namespace Raphael

/-! ## The unwinder -/

def kFrameSize : Word := 16

def isValid (fp st sb : Word) : Prop := fp > sb ∧ fp < st - kFrameSize

instance (fp st sb : Word) : Decidable (isValid fp st sb) := inferInstanceAs (Decidable (_ ∧ _))

/-- The test on a saved frame pointer `pre` that ends the walk at `fp`. -/
def broken (pre fp : Word) : Prop := pre &&& 0xf ≠ 0 ∨ pre < fp + kFrameSize

instance (pre fp : Word) : Decidable (broken pre fp) := inferInstanceAs (Decidable (_ ∨ _))

/-- Write `a[i] = v` in an array of `n` slots. -/
def write? {n : ℕ} (a : Fin n → Word) (i : ℕ) (v : Word) : Option (Fin n → Word) :=
  if h : i < n then some (Function.update a ⟨i, h⟩ v) else none

/-- The stack of a thread inside `unwind_backtrace`. -/
structure Stack where
  /-- the `uintptr_t` at an address -/
  mem : Word → Word
  st : Word
  sb : Word
  /-- `__builtin_frame_address(0)` -/
  fp : Word

/-- The variables of the loop. -/
structure Walk (n : ℕ) where
  fp : Word
  sb : Word
  pc : Word
  depth : ℕ
  stack : Fin n → Word

/-- The loop of `unwind_backtrace`, with at most the given number of rounds. -/
def unwindLoop {n : ℕ} (mem : Word → Word) (st : Word) (maxDepth : ℕ) :
    ℕ → Walk n → Option (Walk n)
  | 0, _ => none
  | rounds + 1, w =>
    if isValid w.fp st w.sb ∧ w.depth < maxDepth then
      let tt := mem (w.fp + 8)
      let pre := mem w.fp
      if broken pre w.fp then some w
      else if tt ≠ w.pc then do
        let stack ← write? w.stack w.depth tt
        unwindLoop mem st maxDepth rounds ⟨pre, w.fp, tt, w.depth + 1, stack⟩
      else unwindLoop mem st maxDepth rounds ⟨pre, w.fp, tt, w.depth, w.stack⟩
    else some w

/-- `unwind_backtrace`: the result and the array `stack`. -/
def unwindBacktrace {n : ℕ} (s : Stack) (stack : Fin n → Word) (maxDepth : ℕ) :
    Option (ℕ × (Fin n → Word)) :=
  (unwindLoop s.mem s.st maxDepth (2 ^ 64) ⟨s.fp, s.sb, 0, 0, stack⟩).map
    fun w => (w.depth, w.stack)

/-- The `Backtrace` of `insert_memory_backtrace`, where `trace` is what the
    array held before. -/
def capture (g : Configs) (s : Stack) (trace : Trace) : Option Backtrace :=
  (unwindBacktrace s trace (g.depth + 1).toNat).map fun r => ⟨BitVec.ofNat 32 r.1, r.2⟩

/-! ## The chain of frames -/

/-- What is left of the address space above a frame pointer inside its range. -/
def gap (sb fp : Word) : ℕ := if sb < fp then 2 ^ 64 - fp.toNat else 0

theorem gap_lt {sb fp : Word} (h : sb < fp) (pre : Word) : gap fp pre < gap sb fp := by
  have hfp := fp.isLt
  rw [gap, gap, if_pos h]
  split
  · bv_omega
  · omega

/-- The return addresses of the frames from `fp` on: those inside the range
    whose saved frame pointer is aligned and leads upwards. -/
def returns (mem : Word → Word) (st sb fp : Word) : List Word :=
  if h : isValid fp st sb ∧ ¬ broken (mem fp) fp then
    mem (fp + 8) :: returns mem st fp (mem fp)
  else []
termination_by gap sb fp
decreasing_by exact gap_lt h.1.1 _

/-- Of a run of equal addresses only the first one, and none of a leading run
    of `pc`. -/
def collapse (pc : Word) (l : List Word) : List Word := (l.destutter' (· ≠ ·) pc).tail

@[simp] theorem collapse_nil (pc : Word) : collapse pc [] = [] := rfl

theorem collapse_cons (pc tt : Word) (l : List Word) :
    collapse pc (tt :: l) = if tt = pc then collapse pc l else tt :: collapse tt l := by
  have head : ∀ l : List Word, l.destutter' (· ≠ ·) tt = tt :: collapse tt l := by
    intro l
    induction l with
    | nil => rfl
    | cons v l ih =>
      by_cases h : tt ≠ v
      · simp [collapse, List.destutter'_cons_pos _ h]
      · rw [collapse, List.destutter'_cons_neg _ h, ih]; rfl
  split_ifs with h
  · rw [collapse, List.destutter'_cons_neg _ (by simpa using h.symm), collapse]
  · rw [collapse, List.destutter'_cons_pos _ (Ne.symm h), List.tail_cons, head]

/-- The frames of a stack as the unwinder lists them. -/
def Stack.entries (s : Stack) : List Word := collapse 0 (returns s.mem s.st s.sb s.fp)

/-! ## What the walk writes -/

/-- Write the words `l` from the slot `i` on. -/
def writes? {n : ℕ} : (Fin n → Word) → ℕ → List Word → Option (Fin n → Word)
  | a, _, [] => some a
  | a, i, v :: l => (write? a i v).bind fun a => writes? a (i + 1) l

theorem writes?_isSome {n : ℕ} {l : List Word} {i : ℕ} (a : Fin n → Word) :
    (writes? a i l).isSome ↔ l = [] ∨ i + l.length ≤ n := by
  induction l generalizing i a with
  | nil => simp [writes?]
  | cons v l ih =>
    by_cases h : i < n
    · simp only [writes?, write?, dif_pos h, Option.bind_some, ih, reduceCtorEq,
        false_or, List.length_cons]
      rcases l with _ | ⟨u, l⟩
      · simp; omega
      · simp; omega
    · simp [writes?, write?, h]; omega

/-- **The walk writes the collapsed return addresses in order**, up to
    `maxDepth` of them, and ends. -/
theorem unwindLoop_eq {n : ℕ} (mem : Word → Word) (st : Word) (maxDepth rounds : ℕ) (w : Walk n)
    (hr : gap w.sb w.fp < rounds) :
    (unwindLoop mem st maxDepth rounds w).map (fun w => (w.depth, w.stack)) =
      let l := (collapse w.pc (returns mem st w.sb w.fp)).take (maxDepth - w.depth)
      (writes? w.stack w.depth l).map fun a => (w.depth + l.length, a) := by
  induction rounds generalizing w with
  | zero => exact absurd hr (Nat.not_lt_zero _)
  | succ rounds ih =>
    rw [unwindLoop, returns]
    by_cases hv : isValid w.fp st w.sb
    · by_cases hd : w.depth < maxDepth
      · have hgap : gap w.fp (mem w.fp) < rounds := by
          have := gap_lt hv.1 (mem w.fp); omega
        have ht : maxDepth - w.depth = maxDepth - (w.depth + 1) + 1 := by omega
        by_cases hb : broken (mem w.fp) w.fp
        · simp [hv, hd, hb, writes?]
        · by_cases hpc : mem (w.fp + 8) = w.pc
          · -- a repeated return address: nothing is written
            simp only [hv, hd, hb, hpc, and_self, not_false_eq_true, if_true, if_false, dif_pos,
              ne_eq, not_true_eq_false, collapse_cons]
            exact ih ⟨_, _, w.pc, _, _⟩ hgap
          · simp only [hv, hd, hb, hpc, and_self, not_false_eq_true, if_true, if_false, dif_pos,
              ne_eq, collapse_cons, ht, List.take_succ_cons, writes?, Option.bind_eq_bind]
            cases write? w.stack w.depth (mem (w.fp + 8)) with
            | none => rfl
            | some a =>
              have ih := ih ⟨mem w.fp, w.fp, mem (w.fp + 8), w.depth + 1, a⟩ hgap
              simp only [Option.bind_some, ih, List.length_cons, Nat.add_assoc, Nat.add_comm 1]
      · simp [hd, show maxDepth - w.depth = 0 by omega, writes?]
    · simp [hv, writes?]

theorem unwindBacktrace_eq {n : ℕ} (s : Stack) (stack : Fin n → Word) (maxDepth : ℕ) :
    unwindBacktrace s stack maxDepth =
      (writes? stack 0 (s.entries.take maxDepth)).map fun a =>
        ((s.entries.take maxDepth).length, a) := by
  have hgap : gap s.sb s.fp < 2 ^ 64 := by
    rw [gap]
    split <;> bv_omega
  rw [unwindBacktrace, unwindLoop_eq _ _ _ _ _ hgap]
  simp [Stack.entries]

/-- **Unwinding stays inside the array iff the requested part of the call
    stack fits.** -/
theorem unwindBacktrace_isSome {n : ℕ} (s : Stack) (stack : Fin n → Word) (maxDepth : ℕ) :
    (unwindBacktrace s stack maxDepth).isSome ↔ min maxDepth s.entries.length ≤ n := by
  rw [unwindBacktrace_eq, Option.isSome_map, writes?_isSome, Nat.zero_add, List.length_take]
  constructor
  · rintro (h | h)
    · simpa using (congrArg List.length h).trans_le (Nat.zero_le n)
    · exact h
  · exact .inr

/-! ## Capturing and storing -/

theorem depth_ofParams (params : BitVec 32) : (Configs.ofParams params).depth.toNat < 32 := by
  have h : params.toNat &&& depthMask.toNat ≤ 0x1F0000 := Nat.and_le_right
  rw [Configs.ofParams, BitVec.toNat_ushiftRight, BitVec.toNat_and, Nat.shiftRight_eq_div_pow]
  omega

theorem capture_isSome (params : BitVec 32) (s : Stack) (trace : Trace) :
    (capture (Configs.ofParams params) s trace).isSome ↔
      (Configs.ofParams params).depth.toNat < maxTraceDepth ∨ s.entries.length ≤ maxTraceDepth := by
  have hd := depth_ofParams params
  have hd' : ((Configs.ofParams params).depth + 1).toNat =
      (Configs.ofParams params).depth.toNat + 1 := by
    bv_omega
  rw [capture, Option.isSome_map, unwindBacktrace_isSome, hd']
  omega

theorem capture_depth {g : Configs} {s : Stack} {trace : Trace} {bt : Backtrace}
    (h : capture g s trace = some bt) : bt.depth.toNat ≤ maxTraceDepth := by
  obtain ⟨⟨d, t⟩, hu, rfl⟩ := Option.map_eq_some_iff.1 h
  have hfit := (unwindBacktrace_isSome s trace _).1 (Option.isSome_of_mem hu)
  rw [unwindBacktrace_eq] at hu
  obtain ⟨a, -, e⟩ := Option.map_eq_some_iff.1 hu
  obtain rfl := (congrArg Prod.fst e).symm
  rw [List.length_take]
  exact (Nat.mod_le ..).trans hfit

/-- Inserting a backtrace whose depth fits stays inside the arrays, and the
    node it fills can be printed. -/
theorem insert_inside {bt : Backtrace} (h : bt.depth.toNat ≤ maxTraceDepth) (c : MemoryCache)
    (address size : Word) : ∃ c', c.insert address size bt = some c' ∧
      ∀ pool p, c.allocCache.apply = (pool, some p) →
        ∀ env, (writeTrace env (c'.allocCache.mCache p)).isSome := by
  rcases e : c.allocCache.apply with ⟨pool, _ | p⟩
  · exact ⟨c, by simp [MemoryCache.insert, e], by simp⟩
  · obtain ⟨t, ht⟩ := Option.isSome_iff_exists.1 ((bt.store_isSome (pool.mCache p).trace).2 h)
    refine ⟨_, by simp [MemoryCache.insert, e, ht]; rfl, ?_⟩
    rintro _ _ ⟨rfl, rfl⟩ env
    simp [writeTrace, Backtrace.frames_store ht]

/-- Capturing a backtrace and storing it stays inside the arrays, into
    whatever table it is stored, and `write_trace` finds the terminating zero
    inside the node. -/
def Inside (g : Configs) (s : Stack) (trace : Trace) : Prop :=
  ∃ bt, capture g s trace = some bt ∧ ∀ (c : MemoryCache) (address size : Word),
    ∃ c', c.insert address size bt = some c' ∧
      ∀ pool p, c.allocCache.apply = (pool, some p) →
        ∀ env, (writeTrace env (c'.allocCache.mCache p)).isSome

/-- **A backtrace stays inside the arrays iff the depth field of the
    configuration word is below `MAX_TRACE_DEPTH` or the call stack has no more
    than `MAX_TRACE_DEPTH` entries.** -/
theorem inside_iff (params : BitVec 32) (s : Stack) (trace : Trace) :
    Inside (Configs.ofParams params) s trace ↔
      (Configs.ofParams params).depth.toNat < maxTraceDepth ∨ s.entries.length ≤ maxTraceDepth := by
  rw [← capture_isSome params s trace]
  constructor
  · rintro ⟨bt, h, -⟩
    simp [h]
  · intro h
    obtain ⟨bt, h⟩ := Option.isSome_iff_exists.1 h
    exact ⟨bt, h, insert_inside (capture_depth h)⟩

/-- A stack of frames one upon the other, each returning to its own address. -/
def ladder : Stack where
  mem a := if a &&& 8 = 0 then a + 16 else a
  st := 0x2000
  sb := 0x1000
  fp := 0x1010

/-- With depth 16 the walk writes the slot `trace[16]`. -/
theorem outside_deep : ¬ ∀ params s trace, Inside (Configs.ofParams params) s trace := by
  intro h
  obtain ⟨bt, e, -⟩ := h 0x00D00040 ladder fun _ => 0
  exact absurd (Option.isSome_of_mem e) (by decide +kernel)

end Raphael
