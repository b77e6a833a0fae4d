/-
  The backtrace of the 32-bit unwinder (`unwind_backtrace_common` of backtrace-arm.c,
  `libudf_unwind_backtrace` of backtrace.c).

  * `unwindLoop_ends`: the loop faults, or ends inside the array it is given.
  * `Calls` describes a stack of active functions whose prologues the index knows.
  * `backtrace_spec`: the backtrace has their addresses, innermost first.
-/
import Raphael.Prologue

namespace Raphael

namespace Unwind32

/-- `map_info_t` -/
structure MapInfo where
  start : Word32
  stop : Word32
  isExecutable : Bool

def findMapInfo (milist : List MapInfo) (addr : Word32) : Option MapInfo :=
  milist.find? fun mi => decide (mi.start ≤ addr ∧ addr < mi.stop)

def isExecutableMap (milist : List MapInfo) (addr : Word32) : Bool :=
  match findMapInfo milist addr with
  | none => false
  | some mi => mi.isExecutable

section
variable (m : Memory)

def tryGetHalfWord (pc : Word32) : Except Stop (Option (BitVec 16)) := do
  match ← m.tryGetWord (pc &&& ~~~2) with
  | none => return none
  | some w => return some (if pc &&& 2 ≠ 0 then w.extractLsb' 16 16 else w.extractLsb' 0 16)

/-- A Thumb call of two half words. -/
def longCall (pc : Word32) : Except Stop Bool := do
  match ← tryGetHalfWord m (pc - 5) with
  | none => return false
  | some prev1 =>
    if prev1 &&& 0xf000 = 0xf000 then
      match ← tryGetHalfWord m (pc - 3) with
      | none => return false
      | some prev2 => return decide (prev2 &&& 0xe000 = 0xe000)
    else return false

def rewindPcArch (pc : Word32) : Except Stop Word32 :=
  if pc &&& 1 ≠ 0 then do
    let long ← longCall m pc
    return if long then pc - 4 else pc - 2
  else .ok (pc - 4)

/-- The loop of `try_pop_Stack_ForNotSaveInASM`. -/
def scanStack (pc : Word32) : ℕ → Word32 → Except Stop (Option Word32)
  | 0, _ => .ok none
  | n + 1, sp => do
    match ← m.tryGetWordStack sp with
    | none => return none
    | some value => if value = pc then return some (sp + 4) else scanStack pc n (sp + 4)

def tryPopStackForNotSaveInASM (r : Gregs) : Except Stop Gregs := do
  match ← m.tryGetWordStack (r.sp - 4) with
  | none => return r
  | some value =>
    if value = r.pc then return r
    else match ← scanStack m r.pc 16 r.sp with
      | none => return r
      | some sp => return r.set 13 sp

/-- The variables of the loop; `frames` is what was written to the array. -/
structure Backtrace where
  regs : Gregs
  ignored : ℕ
  frames : List Word32

variable (ignoreDepth maxDepth : ℕ)

def addBacktraceEntry (pc : Word32) (b : Backtrace) : Backtrace :=
  if b.ignored < ignoreDepth then { b with ignored := b.ignored + 1 }
  else if maxDepth ≤ b.frames.length then b
  else { b with frames := b.frames ++ [pc] }

/-- The address that is looked up for the value of `gregs[R_PC]`. -/
def place (first : Bool) (pc : Word32) : Except Stop Word32 :=
  if first then .ok pc else rewindPcArch m pc

/-- The loop of `unwind_backtrace_common`, with at most the given number of rounds. -/
def unwindLoop : ℕ → Bool → Backtrace → Except Stop Backtrace
  | 0, _, _ => .error .rounds
  | rounds + 1, first, b =>
    if b.frames.length < maxDepth then
      if b.regs.pc < 0x10000000 then .ok b
      else do
        let pc ← place m first b.regs.pc
        let b := addBacktraceEntry ignoreDepth maxDepth pc b
        let handler ← getExceptionHandler m pc
        if handler = 0 then
          if first ∧ b.regs.lr ≠ 0 ∧ b.regs.lr ≠ b.regs.pc then
            unwindLoop rounds false { b with regs := b.regs.set 15 b.regs.lr }
          else return b
        else
          match ← runHandler m b.regs handler with
          | (false, r) => return { b with regs := r }
          | (true, r) =>
            let r ← (if b.frames.length = 1 then tryPopStackForNotSaveInASM m r else .ok r)
            if r.pc = 0 then return { b with regs := r }
            else unwindLoop rounds false { b with regs := r }
    else .ok b

/-- Each round ignores an address or writes one. -/
def unwindBacktraceCommon (milist : List MapInfo) (r : Gregs) : Except Stop (List Word32) := do
  let b ← unwindLoop m ignoreDepth maxDepth (ignoreDepth + maxDepth + 1) true ⟨r, 0, []⟩
  if b.frames.length < maxDepth ∧ b.regs.lr ≠ 0 ∧ b.regs.lr ≠ b.regs.pc ∧
      isExecutableMap milist b.regs.lr = true then
    let pc ← rewindPcArch m b.regs.lr
    return (addBacktraceEntry ignoreDepth maxDepth pc b).frames
  else return b.frames

/-- `acquire_my_map_info_list` has no maps. -/
def libudfUnwindBacktrace (r : Gregs) : Except Stop (List Word32) :=
  unwindBacktraceCommon m ignoreDepth maxDepth [] r

end

/-! ## The loop ends -/

variable {m : Memory} (ignoreDepth : ℕ) {maxDepth : ℕ}

theorem tryGetHalfWord_ends (pc : Word32) : Ends (fun _ => True) (tryGetHalfWord m pc) := by
  refine (tryGetWord_ends _).bind fun w _ => ?_
  cases w <;> trivial

theorem longCall_ends (pc : Word32) : Ends (fun _ => True) (longCall m pc) := by
  refine (tryGetHalfWord_ends _).bind fun prev1 _ => ?_
  cases prev1 with
  | none => trivial
  | some prev1 =>
    refine .ite ((tryGetHalfWord_ends _).bind fun prev2 _ => ?_) trivial
    cases prev2 <;> trivial

theorem rewindPcArch_ends (pc : Word32) : Ends (fun _ => True) (rewindPcArch m pc) :=
  .ite ((longCall_ends pc).bind fun _ _ => trivial) trivial

theorem scanStack_ends (pc : Word32) (n : ℕ) (sp : Word32) :
    Ends (fun _ => True) (scanStack m pc n sp) := by
  induction n generalizing sp with
  | zero => trivial
  | succ n ih =>
    refine (tryGetWordStack_ends sp).bind fun value _ => ?_
    cases value with
    | none => trivial
    | some value => exact .ite trivial (ih _)

theorem tryPopStack_ends (r : Gregs) : Ends (fun _ => True) (tryPopStackForNotSaveInASM m r) := by
  refine (tryGetWordStack_ends _).bind fun value _ => ?_
  cases value with
  | none => trivial
  | some value =>
    refine .ite trivial ((scanStack_ends _ _ _).bind fun sp _ => ?_)
    cases sp <;> trivial

theorem place_ends (first : Bool) (pc : Word32) : Ends (fun _ => True) (place m first pc) :=
  .ite trivial (rewindPcArch_ends pc)

/-- The entries that are still to be ignored or written. -/
def Backtrace.left (ignoreDepth maxDepth : ℕ) (b : Backtrace) : ℕ :=
  (ignoreDepth - b.ignored) + (maxDepth - b.frames.length)

theorem addBacktraceEntry_left {b : Backtrace} (h : b.frames.length < maxDepth) (pc : Word32) :
    (addBacktraceEntry ignoreDepth maxDepth pc b).left ignoreDepth maxDepth <
        b.left ignoreDepth maxDepth ∧
      (addBacktraceEntry ignoreDepth maxDepth pc b).frames.length ≤ maxDepth := by
  unfold addBacktraceEntry
  split
  case isTrue hi =>
    refine ⟨?_, Nat.le_of_lt h⟩
    unfold Backtrace.left
    simp only
    omega
  case isFalse hi =>
    rw [if_neg (Nat.not_le.2 h)]
    constructor
    · unfold Backtrace.left
      simp only [List.length_append, List.length_singleton]
      omega
    · rw [List.length_append, List.length_singleton]
      exact h

theorem addBacktraceEntry_length {b : Backtrace} (h : b.frames.length ≤ maxDepth) (pc : Word32) :
    (addBacktraceEntry ignoreDepth maxDepth pc b).frames.length ≤ maxDepth := by
  rcases Nat.lt_or_eq_of_le h with hlt | e
  · exact (addBacktraceEntry_left ignoreDepth hlt pc).2
  · unfold addBacktraceEntry
    rw [if_pos (Nat.le_of_eq e.symm)]
    split_ifs <;> exact h

section
variable (hcount : ∀ pc, 0 ≤ (m.findExidx pc).2.toInt)
include hcount

/-- **The loop ends** after one round for each entry, and **stays inside the array**. -/
theorem unwindLoop_ends {rounds : ℕ} (first : Bool) {b : Backtrace}
    (hr : b.left ignoreDepth maxDepth < rounds) (hb : b.frames.length ≤ maxDepth) :
    Ends (fun b' => b'.frames.length ≤ maxDepth)
      (unwindLoop m ignoreDepth maxDepth rounds first b) := by
  induction rounds generalizing first b with
  | zero => omega
  | succ rounds ih =>
    rw [unwindLoop]
    by_cases hlt : b.frames.length < maxDepth
    · rw [if_pos hlt]
      refine .ite hb ((place_ends first b.regs.pc).bind fun pc _ => ?_)
      obtain ⟨h1, h2⟩ := addBacktraceEntry_left ignoreDepth hlt pc
      dsimp only
      generalize addBacktraceEntry ignoreDepth maxDepth pc b = b₁ at *
      -- a round has used up an entry
      have hgo : ∀ r, Ends (fun b' => b'.frames.length ≤ maxDepth)
          (unwindLoop m ignoreDepth maxDepth rounds false { b₁ with regs := r }) :=
        fun r => ih _ (Nat.lt_of_lt_of_le h1 (Nat.le_of_lt_succ hr)) h2
      refine (getExceptionHandler_ends (hcount pc)).bind fun handler _ => ?_
      refine .ite (.ite (hgo _) h2) ((runHandler_ends _ _).bind fun x _ => ?_)
      rcases x with ⟨_ | _, r⟩
      · exact h2
      · have hr' : Ends (fun _ => True) (.ok r) := trivial
        refine (Ends.ite (tryPopStack_ends r) hr').bind fun r' _ => ?_
        exact .ite h2 (hgo r')
    · rw [if_neg hlt]
      exact hb

/-- **A backtrace faults, or ends inside the array**, whatever is in memory, when the numbers
    of entries are not negative. -/
theorem unwindBacktraceCommon_ends (ignoreDepth maxDepth : ℕ) (milist : List MapInfo) (r : Gregs) :
    Ends (fun l => l.length ≤ maxDepth)
      (unwindBacktraceCommon m ignoreDepth maxDepth milist r) := by
  have hleft : (⟨r, 0, []⟩ : Backtrace).left ignoreDepth maxDepth < ignoreDepth + maxDepth + 1 := by
    simp [Backtrace.left]
  refine (unwindLoop_ends ignoreDepth hcount true hleft (Nat.zero_le _)).bind fun b hlen => ?_
  refine .ite ((rewindPcArch_ends _).bind fun pc _ => ?_) hlen
  exact addBacktraceEntry_length ignoreDepth hlen pc

end

/-! ## Stacks of active functions -/

/-- The registers that a call keeps. -/
def calleeSaved : Finset Reg := {4, 5, 6, 7, 8, 9, 10, 11, 13}

/-- An active function. -/
structure Activation where
  save : List Save
  /-- the registers at the entry, with the return address in `lr` -/
  entry : Gregs
  /-- the registers now, or at the call that has not returned -/
  body : Gregs
  /-- the registers that are as the prologue left them -/
  kept : Finset Reg
  /-- where the unwinding instructions are -/
  handler : Word32
  /-- the unwinding instructions -/
  prog : List Insn

/-- At `pc` the function `a` is active, and the index has the inverse of its prologue. -/
structure Activation.Live (m : Memory) (a : Activation) (pc : Word32) : Prop where
  done : ∃ r', Done m a.save a.entry r' ∧ Agree a.kept a.body r'
  sound : Sound a.save a.kept
  known : insert 14 calleeSaved ⊆ known a.save a.kept
  lookup : getExceptionHandler m pc = .ok a.handler
  handler : a.handler ≠ 0
  data : HandlerData m a.handler a.prog
  insns : ∀ i ∈ a.prog, i.Known
  effects : ∃ k, a.prog.map Insn.effect = undo a.save ++ List.replicate k .finish

/-- The return address is the last that was pushed of the first registers. -/
def Activation.Tops (a : Activation) : Prop := ∃ rs p, a.save = .push (rs ++ [14]) :: p

/-- From `pc` on the functions `as` are active, innermost first, at the addresses `l`. -/
inductive Calls (m : Memory) : Bool → Word32 → List Activation → List Word32 → Prop
  /-- a return address that is not looked up -/
  | low {first pc} (hlow : pc < 0x10000000) : Calls m first pc [] []
  /-- a caller without a handler -/
  | unknown {pc p} (hlow : 0x10000000 ≤ pc) (hp : place m false pc = .ok p)
      (h0 : getExceptionHandler m p = .ok 0) : Calls m false pc [] [p]
  | call {first pc p a as l} (hlow : 0x10000000 ≤ pc) (hp : place m first pc = .ok p)
      (hl : a.Live m p) (hc : Calls m false a.entry.lr as l)
      (hkept : ∀ a' ∈ as.head?, a'.kept ⊆ calleeSaved ∧ Agree calleeSaved a.entry a'.body) :
      Calls m first pc (a :: as) (p :: l)

theorem runs_finish (m : Memory) (k : ℕ) (r : Gregs) :
    Effect.runs m vspOf (List.replicate k .finish) false r = .ok (true, r.set 15 r.lr) := by
  cases k <;> rfl

/-- **One activation is unwound**: to the registers at its entry, as far as calls keep
    them, and to its return address. -/
theorem Activation.Live.unwind {a : Activation} {pc : Word32} (h : a.Live m pc) {u : Gregs}
    (hu : Agree a.kept u a.body) : ∃ u', runHandler m u a.handler = .ok (true, u') ∧
      Agree calleeSaved u' a.entry ∧ u'.pc = a.entry.lr := by
  obtain ⟨r', hd, hb⟩ := h.done
  obtain ⟨k, hk⟩ := h.effects
  obtain ⟨v, hv, ha⟩ := undo_spec h.sound hd (hu.trans hb) (List.replicate k .finish)
  have hlr : v.lr = a.entry.lr := ha 14 (h.known (by decide))
  refine ⟨v.set 15 v.lr, ?_, fun i hi => ?_, ?_⟩
  · rw [runHandler_known h.data h.insns, hk, hv, runs_finish]
  · have h15 : i ≠ 15 := by
      rintro rfl
      revert hi
      decide
    rw [Gregs.set_of_ne _ _ h15]
    exact ha i (h.known (Finset.mem_insert_of_mem hi))
  · rw [Gregs.pc, Gregs.set_self, hlr]

/-- The return address below the stack pointer is found at once. -/
theorem tops_quiet {a : Activation} {pc : Word32} (h : a.Live m pc) (ht : a.Tops) {u : Gregs}
    (hu : Agree calleeSaved u a.entry) (hpc : u.pc = a.entry.lr) :
    tryPopStackForNotSaveInASM m u = .ok u := by
  obtain ⟨r', hd, -⟩ := h.done
  obtain ⟨rs, p, e⟩ := ht
  rw [e] at hd
  have hw := hd.1 rs.length (by simp)
  have hsp : u.sp = a.entry.sp := hu 13 (by decide)
  have haddr : a.entry.sp - BitVec.ofNat 32 (4 * (rs ++ [14]).length) +
      BitVec.ofNat 32 (4 * rs.length) = u.sp - 4 := by
    rw [hsp, List.length_append, List.length_singleton, Nat.mul_add, BitVec.ofNat_add,
      BitVec.add_comm (BitVec.ofNat 32 (4 * rs.length)), ← BitVec.sub_sub, BitVec.sub_add_cancel]
    rfl
  rw [haddr] at hw
  have hv : m.tryGetWordStack (u.sp - 4) = .ok (some a.entry.lr) := by
    rw [hw]
    simp [Gregs.lr]
  rw [tryPopStackForNotSaveInASM, hv, ok_bind]
  dsimp only
  rw [if_pos hpc.symm]
  rfl

theorem addBacktraceEntry_regs (maxDepth : ℕ) (pc : Word32) (b : Backtrace) :
    (addBacktraceEntry ignoreDepth maxDepth pc b).regs = b.regs := by
  unfold addBacktraceEntry
  split_ifs <;> rfl

/-- An entry is ignored, or written behind the others. -/
theorem addBacktraceEntry_cases {b : Backtrace} (h : b.frames.length < maxDepth)
    (hi : b.frames ≠ [] → ignoreDepth ≤ b.ignored) (pc : Word32) :
    b.frames = [] ∧ b.ignored < ignoreDepth ∧
        addBacktraceEntry ignoreDepth maxDepth pc b = { b with ignored := b.ignored + 1 } ∨
      ignoreDepth ≤ b.ignored ∧
        addBacktraceEntry ignoreDepth maxDepth pc b = { b with frames := b.frames ++ [pc] } := by
  unfold addBacktraceEntry
  by_cases hlt : b.ignored < ignoreDepth
  · refine .inl ⟨?_, hlt, if_pos hlt⟩
    by_contra hne
    exact Nat.not_lt.2 (hi hne) hlt
  · exact .inr ⟨Nat.le_of_not_lt hlt, by rw [if_neg hlt, if_neg (Nat.not_le.2 h)]⟩

/-- What is written of the addresses `x :: l`, after the first one. -/
theorem addBacktraceEntry_frames {b : Backtrace} (h : b.frames.length < maxDepth)
    (hi : b.frames ≠ [] → ignoreDepth ≤ b.ignored) (x : Word32) (l : List Word32) :
    b.frames ++ ((x :: l).drop (ignoreDepth - b.ignored)).take (maxDepth - b.frames.length) =
      let b' := addBacktraceEntry ignoreDepth maxDepth x b
      b'.frames ++ (l.drop (ignoreDepth - b'.ignored)).take (maxDepth - b'.frames.length) := by
  rcases addBacktraceEntry_cases ignoreDepth h hi x with ⟨-, hlt, e⟩ | ⟨hge, e⟩
  · rw [e]
    dsimp only
    rw [show ignoreDepth - b.ignored = ignoreDepth - (b.ignored + 1) + 1 by omega,
      List.drop_succ_cons]
  · rw [e]
    dsimp only
    rw [Nat.sub_eq_zero_of_le hge, List.drop_zero, List.drop_zero, List.length_append,
      List.length_singleton,
      show maxDepth - b.frames.length = maxDepth - (b.frames.length + 1) + 1 by omega,
      List.take_succ_cons, List.append_assoc, List.singleton_append]

/-- An entry has been written only after the ignored ones. -/
theorem addBacktraceEntry_ignored {b : Backtrace} (h : b.frames.length < maxDepth)
    (hi : b.frames ≠ [] → ignoreDepth ≤ b.ignored) (pc : Word32) :
    (addBacktraceEntry ignoreDepth maxDepth pc b).frames ≠ [] →
      ignoreDepth ≤ (addBacktraceEntry ignoreDepth maxDepth pc b).ignored := by
  intro hne
  rcases addBacktraceEntry_cases ignoreDepth h hi pc with ⟨h0, -, e⟩ | ⟨hge, e⟩
  · rw [e] at hne
    exact absurd h0 hne
  · rw [e]
    exact hge

/-- As long as nothing is written one more entry is ignored. -/
theorem addBacktraceEntry_nil {b : Backtrace} (h : b.frames.length < maxDepth)
    (hi : b.frames ≠ [] → ignoreDepth ≤ b.ignored) (pc : Word32)
    (h0 : (addBacktraceEntry ignoreDepth maxDepth pc b).frames = []) :
    b.frames = [] ∧ ignoreDepth - b.ignored =
      ignoreDepth - (addBacktraceEntry ignoreDepth maxDepth pc b).ignored + 1 := by
  rcases addBacktraceEntry_cases ignoreDepth h hi pc with ⟨hnil, hlt, e⟩ | ⟨-, e⟩
  · rw [e]
    exact ⟨hnil, by dsimp only; omega⟩
  · rw [e] at h0
    simp at h0

/-- The one entry that is written is the first that is not ignored. -/
theorem addBacktraceEntry_one {b : Backtrace} (h : b.frames.length < maxDepth)
    (hi : b.frames ≠ [] → ignoreDepth ≤ b.ignored) (pc : Word32)
    (h1 : (addBacktraceEntry ignoreDepth maxDepth pc b).frames.length = 1) :
    b.frames = [] ∧ ignoreDepth - b.ignored = 0 := by
  rcases addBacktraceEntry_cases ignoreDepth h hi pc with ⟨h0, -, e⟩ | ⟨hge, e⟩
  · rw [e, h0] at h1
    cases h1
  · rw [e, List.length_append, List.length_singleton] at h1
    exact ⟨List.length_eq_zero_iff.1 (by omega), Nat.sub_eq_zero_of_le hge⟩

theorem Calls.zero {as : List Activation} {l : List Word32} (h : Calls m false 0 as l) :
    l = [] := by
  cases h with
  | low => rfl
  | unknown hlow => exact absurd hlow (by decide)
  | call hlow => exact absurd hlow (by decide)

/-- **The loop writes the addresses in the active functions**, behind those that it has
    written. -/
theorem unwindLoop_eq {as : List Activation} {l : List Word32} {rounds : ℕ} {first : Bool}
    {pc : Word32} {b : Backtrace} (hc : Calls m first pc as l) (hpc : b.regs.pc = pc)
    (hb : ∀ a ∈ as.head?, Agree a.kept b.regs a.body)
    (hr : b.left ignoreDepth maxDepth < rounds) (hi : b.frames ≠ [] → ignoreDepth ≤ b.ignored)
    (ht : b.frames = [] → ∀ a ∈ as[ignoreDepth - b.ignored]?, a.Tops) :
    ∃ b', unwindLoop m ignoreDepth maxDepth rounds first b = .ok b' ∧
      b'.frames =
        b.frames ++ (l.drop (ignoreDepth - b.ignored)).take (maxDepth - b.frames.length) := by
  induction hc generalizing rounds b with
  | low hlow =>
    obtain ⟨rounds, rfl⟩ := Nat.exists_eq_succ_of_ne_zero (Nat.ne_of_gt (Nat.zero_lt_of_lt hr))
    rw [unwindLoop, hpc, if_pos hlow]
    refine ⟨b, ?_, by simp⟩
    split <;> rfl
  | unknown hlow hp h0 =>
    obtain ⟨rounds, rfl⟩ := Nat.exists_eq_succ_of_ne_zero (Nat.ne_of_gt (Nat.zero_lt_of_lt hr))
    rw [unwindLoop, hpc]
    by_cases hlt : b.frames.length < maxDepth
    · rw [if_pos hlt, if_neg (BitVec.not_lt.2 hlow), hp, ok_bind]
      dsimp only
      rw [h0, ok_bind, if_pos rfl, if_neg (fun h => Bool.false_ne_true h.1)]
      refine ⟨_, rfl, ?_⟩
      rw [addBacktraceEntry_frames ignoreDepth hlt hi]
      simp
    · rw [if_neg hlt, Nat.sub_eq_zero_of_le (Nat.le_of_not_lt hlt)]
      exact ⟨b, rfl, by simp⟩
  | @call first pc p a as l hlow hp hl hcalls hnext ih =>
    obtain ⟨rounds, rfl⟩ := Nat.exists_eq_succ_of_ne_zero (Nat.ne_of_gt (Nat.zero_lt_of_lt hr))
    rw [unwindLoop, hpc]
    by_cases hlt : b.frames.length < maxDepth
    · obtain ⟨u, hu, ha, hupc⟩ := hl.unwind (hb a rfl)
      obtain ⟨hleft, -⟩ := addBacktraceEntry_left ignoreDepth hlt p
      have hregs := addBacktraceEntry_regs ignoreDepth maxDepth p b
      have hone := addBacktraceEntry_one ignoreDepth hlt hi p
      have hnil := addBacktraceEntry_nil ignoreDepth hlt hi p
      have hignored := addBacktraceEntry_ignored ignoreDepth hlt hi p
      rw [if_pos hlt, if_neg (BitVec.not_lt.2 hlow), hp, ok_bind,
        addBacktraceEntry_frames ignoreDepth hlt hi]
      dsimp only
      generalize addBacktraceEntry ignoreDepth maxDepth p b = b₁ at *
      rw [hl.lookup, ok_bind, if_neg hl.handler, hregs, hu, ok_bind]
      dsimp only
      -- after the first entry the stack pointer is right, so that it stays
      have hquiet : (if b₁.frames.length = 1 then tryPopStackForNotSaveInASM m u else .ok u) =
          .ok u := by
        split
        case isFalse => rfl
        case isTrue h1 =>
          obtain ⟨h0, hd⟩ := hone h1
          exact tops_quiet hl (ht h0 a (by rw [hd]; rfl)) ha hupc
      rw [hquiet, ok_bind]
      by_cases hzero : u.pc = 0
      · rw [if_pos hzero]
        refine ⟨_, rfl, ?_⟩
        rw [← hupc, hzero] at hcalls
        rw [hcalls.zero]
        simp
      · rw [if_neg hzero]
        refine ih hupc (fun a' h' => ?_) (Nat.lt_of_lt_of_le hleft (Nat.le_of_lt_succ hr)) hignored
          fun h0 a' h' => ?_
        · obtain ⟨hk, hag⟩ := hnext a' h'
          exact (ha.trans hag).mono hk
        · obtain ⟨hb0, hd⟩ := hnil h0
          refine ht hb0 a' ?_
          rw [hd]
          exact h'
    · rw [if_neg hlt, Nat.sub_eq_zero_of_le (Nat.le_of_not_lt hlt)]
      exact ⟨b, rfl, by simp⟩

def sampleRegs (sp lr pc : Word32) : Gregs := fun i =>
  if i = 13 then sp else if i = 14 then lr else if i = 15 then pc else 0

/-- The activation of a function with `push {r4, lr}`. -/
def sampleActivation (sp lr handler : Word32) : Activation where
  save := [.push [4, 14]]
  entry := sampleRegs sp lr 0
  body := sampleRegs (sp - 8) lr 0
  kept := calleeSaved
  handler := handler
  prog := [.popR4 true 0, .finish, .finish]

theorem sample_live {sp lr pc h : Word32} (hh : getExceptionHandler sampleMemory pc = .ok h)
    (h0 : h ≠ 0) (h4 : h.toNat % 4 = 0) (hw : sampleMemory.word h = some 0x80a8b0b0)
    (hs : ∀ i < 2, sampleMemory.tryGetWordStack (sp - 8 + BitVec.ofNat 32 (4 * i)) =
      .ok (some (if i = 0 then 0 else lr))) : (sampleActivation sp lr h).Live sampleMemory pc := by
  refine ⟨⟨(sampleActivation sp lr h).body, ⟨fun i hi => ?_, ?_⟩, fun _ _ => rfl⟩,
    ⟨by show _ ∈ calleeSaved; decide, by decide, by decide, by decide, trivial⟩,
    by show _ ⊆ calleeSaved ∪ [4, 14].toFinset; decide, hh, h0, ?_, ?_, ⟨2, rfl⟩⟩
  · have := hs i hi
    change i < 2 at hi
    interval_cases i
    · exact this
    · exact this
  · show sampleRegs (sp - 8) lr 0 = (sampleRegs sp lr 0).set 13 (sp - 8)
    funext i
    by_cases hi : i = 13
    · subst hi
      rw [Gregs.set_self]
      rfl
    · rw [Gregs.set_of_ne _ _ hi, sampleRegs, sampleRegs, if_neg hi, if_neg hi]
  · have e : [0x80a8b0b0].flatMap wordBytes =
        0x80 :: [Insn.popR4 true 0, .finish, .finish].flatMap Insn.bytes := by decide
    refine ⟨h4, [0x80a8b0b0], fun i hi => ?_, .inl ⟨e, rfl⟩⟩
    obtain rfl : i = 0 := by simpa using hi
    refine ⟨by show (0x80a8b0b0 : Word32) ≠ _; decide, ?_⟩
    show sampleMemory.word (h + BitVec.ofNat 32 0) = _
    rw [show h + BitVec.ofNat 32 0 = h from BitVec.add_zero _]
    exact hw
  · intro i hi
    simp only [sampleActivation, List.mem_cons, List.not_mem_nil, or_false] at hi
    rcases hi with rfl | rfl | rfl <;> trivial

/-- With the stack pointer outside the stack. -/
theorem unwindBacktraceCommon_ends_sample : Ends (fun l => l.length ≤ 16)
    (unwindBacktraceCommon sampleMemory 0 16 [] (sampleRegs 0 0x10002010 0x10001010)) :=
  unwindBacktraceCommon_ends (fun _ => show 0 ≤ (3 : BitVec 32).toInt by decide) 0 16 [] _

end Unwind32

end Raphael
