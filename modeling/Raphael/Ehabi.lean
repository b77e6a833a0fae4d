/-
  The interpreter of unwinding instructions (`execute_personality_routine` of
  backtrace-arm.c).

  * `execOp` and `execLoop` as the code has them, down to the bytes of the stream.
  * `Insn`, with its `bytes` and its `effect`, is the table of the exception handling ABI
    that the comments of the code cite.
  * `execLoop_eq`: the interpreter follows the table, with r12 in the place of an r7 that is
    no stack pointer (`vspOf`).
  * `runHandler_eq`: so does a handler, for the instructions that its bytes spell when
    `0xc6` and `0xc7` are read as `11000nnn`.
-/
import Raphael.Exidx
import Mathlib.Data.Fintype.Basic
import Mathlib.Data.List.FinRange

namespace Raphael

namespace Unwind32

abbrev Reg := BitVec 4

def allRegs : List Reg := [0, 1, 2, 3, 4, 5, 6, 7, 8, 9, 10, 11, 12, 13, 14, 15]

/-- `gregs` of `unwind_state_t` -/
abbrev Gregs := Reg → Word32

namespace Gregs

def sp (r : Gregs) : Word32 := r 13
def lr (r : Gregs) : Word32 := r 14
def pc (r : Gregs) : Word32 := r 15

/-- `set_reg` -/
def set (r : Gregs) (i : Reg) (v : Word32) : Gregs := Function.update r i v

end Gregs

/-- `byte_stream_t` -/
structure Stream where
  ptr : Word32
  word : Word32

variable (m : Memory)

def tryNextByte (s : Stream) : Except Stop (Option (BitVec 8 × Stream)) :=
  if s.ptr &&& 3 = 0 then do
    match ← m.tryGetWord s.ptr with
    | none => return none
    | some w => return some (w.extractLsb' 24 8, ⟨s.ptr + 1, w⟩)
  else if s.ptr &&& 3 = 1 then .ok (some (s.word.extractLsb' 16 8, { s with ptr := s.ptr + 1 }))
  else if s.ptr &&& 3 = 2 then .ok (some (s.word.extractLsb' 8 8, { s with ptr := s.ptr + 1 }))
  else .ok (some (s.word.extractLsb' 0 8, { s with ptr := s.ptr + 1 }))

/-- The loop of `try_pop_registers`, over the registers left. -/
def popLoop (mask : Word32) : List Reg → Word32 → Bool → Gregs → Except Stop (Bool × Gregs)
  | [], sp, spUpdated, r => .ok (true, if spUpdated then r else r.set 13 sp)
  | i :: is, sp, spUpdated, r =>
    if mask.getLsbD i.toNat then do
      match ← m.tryGetWordStack sp with
      | none => return (false, r)
      | some v => popLoop mask is (sp + 4) (spUpdated || i == 13) (r.set i v)
    else popLoop mask is sp spUpdated r

def tryPopRegisters (r : Gregs) (mask : Word32) : Except Stop (Bool × Gregs) :=
  popLoop m mask allRegs r.sp false r

/-- The variables of the loop. -/
structure Exec where
  regs : Gregs
  stream : Stream
  size : ℕ
  pcWasSet : Bool

/-- How one instruction ends. -/
inductive Next
  | go (e : Exec)
  | finish (e : Exec)
  /-- `return false` -/
  | fail (r : Gregs)

namespace Exec

def setSp (e : Exec) (v : Word32) : Exec := { e with regs := e.regs.set 13 v }

/-- `!(size--) || !try_next_byte(memory, stream, &op2)` -/
def operand (e : Exec) : Except Stop (Option (BitVec 8 × Exec)) :=
  if e.size = 0 then .ok none
  else do
    match ← tryNextByte m e.stream with
    | none => return none
    | some (b, s) => return some (b, { e with stream := s, size := e.size - 1 })

/-- Pop, and go on. -/
def pop (e : Exec) (mask : Word32) (pcWasSet : Bool) : Except Stop Next := do
  match ← tryPopRegisters m e.regs mask with
  | (true, r) => return .go { e with regs := r, pcWasSet := pcWasSet }
  | (false, r) => return .fail r

/-- An operand, or `return false`. -/
def withOperand (e : Exec) (f : BitVec 8 → Exec → Except Stop Next) : Except Stop Next := do
  match ← e.operand m with
  | none => return .fail e.regs
  | some (op2, e) => f op2 e

/-- The loop that reads a `uleb128`. -/
def uleb (f : Word32 → Exec → Except Stop Next) : ℕ → Word32 → ℕ → Exec → Except Stop Next
  | 0, _, _, _ => .error .rounds
  | rounds + 1, value, shift, e => e.withOperand m fun op2 e =>
    let value := value ||| (op2 &&& 0x7f).setWidth 32 <<< shift
    if op2 &&& 0x80 ≠ 0 then uleb f rounds value (shift + 7) e else f value e

end Exec

/-- One instruction. -/
def execOp (op : BitVec 8) (e : Exec) : Except Stop Next :=
  let sp := e.regs.sp
  if op &&& 0xc0 = 0x00 then .ok (.go (e.setSp (sp + (op &&& 0x3f).setWidth 32 <<< 2 + 4)))
  else if op &&& 0xc0 = 0x40 then .ok (.go (e.setSp (sp - (op &&& 0x3f).setWidth 32 <<< 2 - 4)))
  else if op &&& 0xf0 = 0x80 then
    e.withOperand m fun op2 e =>
      let mask : Word32 := (op.setWidth 32 &&& 0x0f) <<< 12 ||| op2.setWidth 32 <<< 4
      if mask ≠ 0 then e.pop m mask (e.pcWasSet || mask.getLsbD 15) else .ok (.fail e.regs)
  else if op &&& 0xf0 = 0x90 then
    if op ≠ 0x9d ∧ op ≠ 0x9f then
      if op = 0x97 ∧ e.regs 7 &&& 0xffff0000 = 0 then .ok (.go (e.setSp (e.regs 12)))
      else .ok (.go (e.setSp (e.regs ((op &&& 0x0f).setWidth 4))))
    else .ok (.fail e.regs)
  else if op &&& 0xf8 = 0xa0 then
    e.pop m ((0x0ff0#32 >>> (7 - (op &&& 0x07).toNat)) &&& 0x0ff0) e.pcWasSet
  else if op &&& 0xf8 = 0xa8 then
    e.pop m (((0x0ff0#32 >>> (7 - (op &&& 0x07).toNat)) &&& 0x0ff0) ||| 0x4000) e.pcWasSet
  else if op = 0xb0 then .ok (.finish e)
  else if op = 0xb1 then
    e.withOperand m fun op2 e =>
      if op2 ≠ 0 ∧ op2 &&& 0xf0 = 0 then e.pop m (op2.setWidth 32) e.pcWasSet
      else .ok (.fail e.regs)
  else if op = 0xb2 then
    e.uleb m (fun value e => .ok (.go (e.setSp (e.regs.sp + value <<< 2 + 0x204)))) (e.size + 1) 0 0
  else if op = 0xb3 then
    e.withOperand m fun op2 e => .ok (.go (e.setSp (sp + (op2 &&& 0x0f).setWidth 32 * 8 + 12)))
  else if op &&& 0xf8 = 0xb8 then .ok (.go (e.setSp (sp + (op &&& 0x07).setWidth 32 * 8 + 12)))
  else if op &&& 0xf8 = 0xc0 then .ok (.go (e.setSp (sp + (op &&& 0x07).setWidth 32 * 8 + 8)))
  else if op = 0xc6 then
    e.withOperand m fun op2 e => .ok (.go (e.setSp (sp + (op2 &&& 0x0f).setWidth 32 * 8 + 8)))
  else if op = 0xc7 then
    e.withOperand m fun op2 e =>
      if op2 ≠ 0 ∧ op2 &&& 0xf0 = 0 then .ok (.go (e.setSp
        (sp + BitVec.ofNat 32 ((List.finRange 8).countP fun i => op2.getLsbD i) * 4)))
      else .ok (.fail e.regs)
  else if op = 0xc8 then
    e.withOperand m fun op2 e => .ok (.go (e.setSp (sp + (op2 &&& 0x0f).setWidth 32 * 8 + 8)))
  else if op = 0xc9 then
    e.withOperand m fun op2 e => .ok (.go (e.setSp (sp + (op2 &&& 0x0f).setWidth 32 * 8 + 8)))
  else if op &&& 0xf8 = 0xd0 then .ok (.go (e.setSp (sp + (op &&& 0x07).setWidth 32 * 8 + 8)))
  else .ok (.fail e.regs)

/-- The registers when the loop ends. -/
def Exec.finish (e : Exec) : Gregs := if e.pcWasSet then e.regs else e.regs.set 15 e.regs.lr

/-- `while (size--)`, with at most the given number of rounds. -/
def execLoop : ℕ → Exec → Except Stop (Bool × Gregs)
  | 0, _ => .error .rounds
  | rounds + 1, e =>
    if e.size = 0 then .ok (true, e.finish)
    else do
      match ← e.operand m with
      | none => return (false, e.regs)
      | some (op, e) => match ← execOp m op e with
        | .go e => execLoop rounds e
        | .finish e => return (true, e.finish)
        | .fail r => return (false, r)

/-- Every round takes a byte at least. -/
def executePersonalityRoutine (r : Gregs) (s : Stream) (prIndex : BitVec 8) :
    Except Stop (Bool × Gregs) :=
  if prIndex = 0 then execLoop m 4 ⟨r, s, 3, false⟩
  else if prIndex = 1 ∨ prIndex = 2 then do
    match ← tryNextByte m s with
    | none => return (false, r)
    | some (b, s) => execLoop m (b.toNat * 4 + 3) ⟨r, s, b.toNat * 4 + 2, false⟩
  else .ok (false, r)

/-- The steps of `unwind_backtrace_common` from a handler to the state of the caller. -/
def runHandler (r : Gregs) (handler : Word32) : Except Stop (Bool × Gregs) := do
  match ← tryNextByte m ⟨handler, 0⟩ with
  | none => return (false, r)
  | some (pr, s) =>
    if pr &&& 0xf0 ≠ 0x80 then return (false, r)
    else executePersonalityRoutine m r s (pr &&& 0x0f)

/-! ## The interpreter ends -/

section Ending
variable {m}

theorem tryNextByte_ends (s : Stream) : Ends (fun _ => True) (tryNextByte m s) := by
  refine .ite ((tryGetWord_ends s.ptr).bind fun w _ => ?_) (.ite trivial (.ite trivial trivial))
  cases w <;> trivial

/-- What an operand leaves has less bytes. -/
theorem operand_ends (e : Exec) :
    Ends (fun o => ∀ b e', o = some (b, e') → e'.size < e.size) (e.operand m) := by
  unfold Exec.operand
  by_cases h0 : e.size = 0
  · rw [if_pos h0]
    exact nofun
  · rw [if_neg h0]
    refine (tryNextByte_ends e.stream).bind fun o _ => ?_
    cases o with
    | none => exact nofun
    | some x =>
      rintro b _ ⟨⟩
      exact Nat.sub_lt (Nat.pos_of_ne_zero h0) Nat.one_pos

/-- An instruction that goes on has no more than `n` bytes left. -/
def Next.Within (n : ℕ) : Next → Prop
  | .go e => e.size ≤ n
  | _ => True

theorem withOperand_ends {e : Exec} {f : BitVec 8 → Exec → Except Stop Next} {n : ℕ}
    (hf : ∀ b e', e'.size < e.size → Ends (Next.Within n) (f b e')) :
    Ends (Next.Within n) (e.withOperand m f) := by
  refine (operand_ends e).bind fun o ho => ?_
  rcases o with _ | ⟨b, e'⟩
  · trivial
  · exact hf b e' (ho b e' rfl)

theorem popLoop_ends (mask : Word32) (is : List Reg) (sp : Word32) (u : Bool) (r : Gregs) :
    Ends (fun _ => True) (popLoop m mask is sp u r) := by
  induction is generalizing sp u r with
  | nil => trivial
  | cons i is ih =>
    refine .ite ((tryGetWordStack_ends sp).bind fun v _ => ?_) (ih _ _ _)
    cases v with
    | none => trivial
    | some v => exact ih _ _ _

theorem pop_ends {e : Exec} {n : ℕ} (he : e.size ≤ n) (mask : Word32) (p : Bool) :
    Ends (Next.Within n) (e.pop m mask p) := by
  refine (popLoop_ends mask allRegs e.regs.sp false e.regs).bind fun x _ => ?_
  rcases x with ⟨_ | _, r⟩
  · trivial
  · exact he

theorem uleb_ends {f : Word32 → Exec → Except Stop Next} {n : ℕ}
    (hf : ∀ v e, e.size ≤ n → Ends (Next.Within n) (f v e)) {rounds : ℕ} {e : Exec}
    (hr : e.size < rounds) (he : e.size ≤ n) (value : Word32) (shift : ℕ) :
    Ends (Next.Within n) (e.uleb m f rounds value shift) := by
  induction rounds generalizing e value shift with
  | zero => omega
  | succ rounds ih =>
    refine withOperand_ends fun b e' hlt => .ite ?_ ?_
    · exact ih (by omega) (by omega) _ _
    · exact hf _ _ (by omega)

theorem execOp_ends (op : BitVec 8) (e : Exec) : Ends (Next.Within e.size) (execOp m op e) := by
  have go : ∀ v, Ends (Next.Within e.size) (.ok (.go (e.setSp v))) := fun _ => Nat.le_refl e.size
  have fail : ∀ r, Ends (Next.Within e.size) (.ok (.fail r)) := fun _ => trivial
  have pop : ∀ mask, Ends (Next.Within e.size) (e.pop m mask e.pcWasSet) :=
    fun mask => pop_ends (Nat.le_refl _) mask _
  have skip : ∀ g : BitVec 8 → Word32, Ends (Next.Within e.size)
      (e.withOperand m fun op2 e => .ok (.go (e.setSp (g op2)))) :=
    fun g => withOperand_ends fun b e' hlt => Nat.le_of_lt hlt
  -- one line for each opcode from 0x80 on, in the order of the code
  refine .ite (go _) (.ite (go _) (.ite ?_ (.ite (.ite (.ite (go _) (go _)) (fail _))
    (.ite (pop _) (.ite (pop _) (.ite trivial (.ite ?_ (.ite ?_ (.ite (skip _) (.ite (go _)
    (.ite (go _) (.ite (skip _) (.ite ?_ (.ite (skip _) (.ite (skip _) (.ite (go _)
    (fail _)))))))))))))))))
  · exact withOperand_ends fun b e' hlt => .ite (pop_ends (Nat.le_of_lt hlt) _ _) trivial
  · exact withOperand_ends fun b e' hlt => .ite (pop_ends (Nat.le_of_lt hlt) _ _) trivial
  · exact uleb_ends (fun v e' he => he) (Nat.lt_succ_self _) (Nat.le_refl _) _ _
  · exact withOperand_ends fun b e' hlt => .ite (Nat.le_of_lt hlt) trivial

theorem execLoop_ends {rounds : ℕ} {e : Exec} (hr : e.size < rounds) :
    Ends (fun _ => True) (execLoop m rounds e) := by
  induction rounds generalizing e with
  | zero => omega
  | succ rounds ih =>
    refine .ite trivial ((operand_ends e).bind fun o ho => ?_)
    rcases o with _ | ⟨op, e'⟩
    · trivial
    · have hlt := ho op e' rfl
      refine (execOp_ends op e').bind fun next hnext => ?_
      cases next with
      | go e₂ => exact ih (Nat.lt_of_le_of_lt hnext (by omega))
      | finish e₂ => trivial
      | fail r => trivial

theorem executePersonalityRoutine_ends (r : Gregs) (s : Stream) (prIndex : BitVec 8) :
    Ends (fun _ => True) (executePersonalityRoutine m r s prIndex) := by
  refine .ite (execLoop_ends (Nat.lt_succ_self 3)) (.ite ?_ trivial)
  refine (tryNextByte_ends s).bind fun o _ => ?_
  rcases o with _ | ⟨b, s'⟩
  · trivial
  · exact execLoop_ends (Nat.lt_succ_self _)

/-- **A handler ends**, whatever its bytes are. -/
theorem runHandler_ends (r : Gregs) (handler : Word32) :
    Ends (fun _ => True) (runHandler m r handler) := by
  refine (tryNextByte_ends _).bind fun o _ => ?_
  rcases o with _ | ⟨pr, s⟩
  · trivial
  · exact .ite trivial (executePersonalityRoutine_ends r s _)

end Ending

/-! ## The table of instructions -/

/-- The unwinding instructions. -/
inductive Insn
  /-- `00xxxxxx` -/
  | vspUp (x : BitVec 6)
  /-- `01xxxxxx` -/
  | vspDown (x : BitVec 6)
  /-- `1000iiii iiiiiiii`, under masks {r15-r12}, {r11-r4} -/
  | popHigh (mask : BitVec 12)
  /-- `1001nnnn` -/
  | setVsp (r : BitVec 4)
  /-- `10100nnn` and `10101nnn`, the second with r14 -/
  | popR4 (lr : Bool) (n : BitVec 3)
  /-- `10110000` -/
  | finish
  /-- `10110001 0000iiii`, under mask {r3, r2, r1, r0} -/
  | popLow (mask : BitVec 4)
  /-- `10110010 uleb128`: the digits that go on, and the last one -/
  | vspBig (digits : List (BitVec 7)) (last : BitVec 7)
  /-- `10110011 sssscccc` -/
  | popVfpX (s c : BitVec 4)
  /-- `10111nnn` -/
  | popVfpX8 (n : BitVec 3)
  /-- `11000nnn`, in the table for nnn below 6 -/
  | popWr10 (n : BitVec 3)
  /-- `11000110 sssscccc` -/
  | popWr (s c : BitVec 4)
  /-- `11000111 0000iiii` -/
  | popWcgr (mask : BitVec 4)
  /-- `11001000 sssscccc` -/
  | popVfp16 (s c : BitVec 4)
  /-- `11001001 sssscccc` -/
  | popVfp (s c : BitVec 4)
  /-- `11010nnn` -/
  | popVfp8 (n : BitVec 3)

/-- What an instruction does: move the virtual stack pointer or set it to a register, pop
    registers in ascending order, end, or refuse. -/
inductive Effect
  | add (n : Word32)
  | set (r : Reg)
  | pop (rs : List Reg)
  | finish
  | refuse
  deriving DecidableEq

/-- The number that the digits of a `uleb128` stand for. -/
def ulebValue : List (BitVec 7) → BitVec 7 → ℕ
  | [], last => last.toNat
  | d :: ds, last => d.toNat + 128 * ulebValue ds last

namespace Insn

def bytes : Insn → List (BitVec 8)
  | vspUp x => [0#2 ++ x]
  | vspDown x => [1#2 ++ x]
  | popHigh mask => [8#4 ++ mask.extractLsb' 8 4, mask.extractLsb' 0 8]
  | setVsp r => [9#4 ++ r]
  | popR4 lr n => [(if lr then 21#5 else 20#5) ++ n]
  | finish => [0xb0]
  | popLow mask => [0xb1, 0#4 ++ mask]
  | vspBig digits last => 0xb2 :: digits.map (1#1 ++ ·) ++ [0#1 ++ last]
  | popVfpX s c => [0xb3, s ++ c]
  | popVfpX8 n => [23#5 ++ n]
  | popWr10 n => [24#5 ++ n]
  | popWr s c => [0xc6, s ++ c]
  | popWcgr mask => [0xc7, 0#4 ++ mask]
  | popVfp16 s c => [0xc8, s ++ c]
  | popVfp s c => [0xc9, s ++ c]
  | popVfp8 n => [26#5 ++ n]

/-- The registers of a mask whose bit 0 stands for register `base`. -/
def registers {w : ℕ} (base : ℕ) (mask : BitVec w) : List Reg :=
  allRegs.filter fun i => base ≤ i.toNat ∧ mask.getLsbD (i.toNat - base)

def effect : Insn → Effect
  | vspUp x => .add (x.setWidth 32 * 4 + 4)
  | vspDown x => .add (-(x.setWidth 32 * 4 + 4))
  | popHigh mask => if mask = 0 then .refuse else .pop (registers 4 mask)
  | setVsp r => if r = 13 ∨ r = 15 then .refuse else .set r
  | popR4 lr n => .pop (allRegs.filter fun i =>
      4 ≤ i.toNat ∧ i.toNat ≤ 4 + n.toNat ∨ lr ∧ i = 14)
  | finish => .finish
  | popLow mask => if mask = 0 then .refuse else .pop (registers 0 mask)
  | vspBig digits last => .add (0x204 + BitVec.ofNat 32 (ulebValue digits last) * 4)
  | popVfpX _ c => .add (c.setWidth 32 * 8 + 12)
  | popVfpX8 n => .add (n.setWidth 32 * 8 + 12)
  | popWr10 n => .add (n.setWidth 32 * 8 + 8)
  | popWr _ c | popVfp16 _ c | popVfp _ c => .add (c.setWidth 32 * 8 + 8)
  | popWcgr mask =>
    if mask = 0 then .refuse
    else .add (BitVec.ofNat 32 ((List.finRange 4).countP fun i => mask.getLsbD i) * 4)
  | popVfp8 n => .add (n.setWidth 32 * 8 + 8)

end Insn

variable {m}

/-- Pop registers from `sp` on. -/
def popRegs (m : Memory) : List Reg → Word32 → Gregs → Except Stop (Bool × Gregs)
  | [], _, r => .ok (true, r)
  | i :: is, sp, r => do
    match ← m.tryGetWordStack sp with
    | none => return (false, r)
    | some v => popRegs m is (sp + 4) (r.set i v)

/-- The registers after `rs` were popped, when `r'` holds them. -/
def afterPop (rs : List Reg) (sp : Word32) (r' : Gregs) : Gregs :=
  if 13 ∈ rs then r' else r'.set 13 (sp + BitVec.ofNat 32 (4 * rs.length))

/-- What the code takes for `vsp = r[nnnn]`: an r7 that is no stack pointer stands for r12. -/
def vspOf (g : Gregs) (r : Reg) : Word32 :=
  if r = 7 ∧ g 7 &&& 0xffff0000 = 0 then g 12 else g r

/-- What an instruction leaves of the variables of the loop. -/
def Effect.next (m : Memory) (e : Exec) : Effect → Except Stop Next
  | .add n => .ok (.go (e.setSp (e.regs.sp + n)))
  | .set r => .ok (.go (e.setSp (vspOf e.regs r)))
  | .pop rs => do
    match ← popRegs m rs e.regs.sp e.regs with
    | (true, r) => return .go { e with
        regs := afterPop rs e.regs.sp r, pcWasSet := e.pcWasSet || decide (15 ∈ rs) }
    | (false, r) => return .fail r
  | .finish => .ok (.finish e)
  | .refuse => .ok (.fail e.regs)

/-- **Programs**: the effects one after another; at the end the return address is in `pc`.
    `vsp` is the value of `r[nnnn]` for the virtual stack pointer. -/
def Effect.runs (m : Memory) (vsp : Gregs → Reg → Word32) :
    List Effect → Bool → Gregs → Except Stop (Bool × Gregs)
  | [], pcWasSet, r => .ok (true, if pcWasSet then r else r.set 15 r.lr)
  | .add n :: es, pcWasSet, r => runs m vsp es pcWasSet (r.set 13 (r.sp + n))
  | .set i :: es, pcWasSet, r => runs m vsp es pcWasSet (r.set 13 (vsp r i))
  | .pop rs :: es, pcWasSet, r => do
    match ← popRegs m rs r.sp r with
    | (true, r') => runs m vsp es (pcWasSet || decide (15 ∈ rs)) (afterPop rs r.sp r')
    | (false, r') => return (false, r')
  | .finish :: _, pcWasSet, r => .ok (true, if pcWasSet then r else r.set 15 r.lr)
  | .refuse :: _, _, r => .ok (false, r)

/-! ## Pops -/

/-- `mask & (1 << i)` -/
def inMask (mask : Word32) (i : Reg) : Bool := mask.getLsbD i.toNat

theorem mem_allRegs (i : Reg) : i ∈ allRegs := by
  revert i
  decide

theorem popLoop_eq (mask : Word32) (is : List Reg) (sp : Word32) (u : Bool) (r : Gregs) :
    popLoop m mask is sp u r = do
      match ← popRegs m (is.filter (inMask mask)) sp r with
      | (true, r') => return (true, if u then r' else afterPop (is.filter (inMask mask)) sp r')
      | (false, r') => return (false, r') := by
  induction is generalizing sp u r with
  | nil =>
    cases u
    · simp [popLoop, popRegs, afterPop, ok_bind]
      rfl
    · simp [popLoop, popRegs, ok_bind]
      rfl
  | cons i is ih =>
    by_cases hi : inMask mask i = true
    · rw [popLoop, if_pos (show mask.getLsbD i.toNat = true from hi), List.filter_cons_of_pos hi,
        popRegs]
      rcases m.tryGetWordStack sp with s | _ | v
      · rfl
      · rfl
      · simp only [ok_bind, ih]
        rcases popRegs m (is.filter (inMask mask)) (sp + 4) (r.set i v) with s | ⟨_ | _, r'⟩
        · rfl
        · rfl
        · have hlen : sp + 4 + BitVec.ofNat 32 (4 * (is.filter (inMask mask)).length) =
              sp + BitVec.ofNat 32 (4 * ((is.filter (inMask mask)).length + 1)) := by
            rw [Nat.mul_add, BitVec.ofNat_add, BitVec.add_assoc, BitVec.add_comm 4]
            rfl
          by_cases h13 : i = 13
          · subst h13
            simp [afterPop]
          · have h13' : (i == 13) = false := by simpa using h13
            simp only [ok_bind, Bool.or_false, h13', afterPop, List.mem_cons, Ne.symm h13, false_or,
              List.length_cons, hlen]
    · rw [popLoop, if_neg (show ¬ mask.getLsbD i.toNat = true from hi),
        List.filter_cons_of_neg hi, ih]

theorem pop_eq {e : Exec} {mask : Word32} {p : Bool} {rs : List Reg}
    (hrs : allRegs.filter (inMask mask) = rs)
    (hp : p = (e.pcWasSet || decide (15 ∈ rs))) : e.pop m mask p = Effect.next m e (.pop rs) := by
  subst hp
  rw [Exec.pop, tryPopRegisters, popLoop_eq, hrs, Effect.next]
  rcases popRegs m rs e.regs.sp e.regs with s | ⟨_ | _, r⟩
  · rfl
  · rfl
  · rfl

/-! ## Bytes -/

/-- From `s` on the stream has the bytes `bs`, up to `s'`. -/
def Yields (m : Memory) : List (BitVec 8) → Stream → Stream → Prop
  | [], s, s' => s' = s
  | b :: bs, s, s' => ∃ t, tryNextByte m s = .ok (some (b, t)) ∧ Yields m bs t s'

theorem Yields.append {as bs : List (BitVec 8)} {s s' : Stream} (h : Yields m (as ++ bs) s s') :
    ∃ t, Yields m as s t ∧ Yields m bs t s' := by
  induction as generalizing s with
  | nil => exact ⟨s, rfl, h⟩
  | cons a as ih =>
    obtain ⟨t, ha, ht⟩ := h
    obtain ⟨u, h1, h2⟩ := ih ht
    exact ⟨u, ⟨t, ha, h1⟩, h2⟩

theorem operand_of_yields {b : BitVec 8} {bs : List (BitVec 8)} {e : Exec} {s' : Stream}
    (h : Yields m (b :: bs) e.stream s') (hsize : bs.length + 1 ≤ e.size) :
    ∃ t, Yields m bs t s' ∧
      e.operand m = .ok (some (b, { e with stream := t, size := e.size - 1 })) := by
  obtain ⟨t, hb, ht⟩ := h
  refine ⟨t, ht, ?_⟩
  rw [Exec.operand, if_neg (by omega), hb]
  rfl

theorem withOperand_of_yields {b : BitVec 8} {e : Exec} {s' : Stream}
    (h : Yields m [b] e.stream s') (hsize : 1 ≤ e.size)
    (f : BitVec 8 → Exec → Except Stop Next) :
    e.withOperand m f = f b { e with stream := s', size := e.size - 1 } := by
  obtain ⟨t, rfl, ho⟩ := operand_of_yields h hsize
  rw [Exec.withOperand, ho, ok_bind]

/-! ## One instruction -/

/-- The instructions that the interpreter knows; the digits of a `uleb128` are those
    of 32 bits. -/
def Insn.Known : Insn → Prop
  | popWr _ _ | popWcgr _ => False
  | vspBig digits _ => digits.length ≤ 4
  | _ => True

/-! The opcodes of the instructions under the tests of the code. -/

theorem vspUp_op : ∀ x : BitVec 6, (0#2 ++ x : BitVec 8) &&& 0xc0 = 0 ∧
    ((0#2 ++ x : BitVec 8) &&& 0x3f).setWidth 32 <<< 2 + (4 : Word32) = x.setWidth 32 * 4 + 4 := by
  decide

theorem vspDown_op : ∀ x : BitVec 6, (1#2 ++ x : BitVec 8) &&& 0xc0 = 0x40 ∧
    ((1#2 ++ x : BitVec 8) &&& 0x3f).setWidth 32 <<< 2 + (4 : Word32) = x.setWidth 32 * 4 + 4 := by
  decide

theorem popHigh_op : ∀ x : BitVec 4, (8#4 ++ x : BitVec 8) &&& 0xc0 = 0x80 ∧
    (8#4 ++ x : BitVec 8) &&& 0xf0 = 0x80 ∧
    ((8#4 ++ x : BitVec 8).setWidth 32 &&& 0x0f : Word32) = x.setWidth 32 := by
  decide

theorem setVsp_op : ∀ x : BitVec 4, (9#4 ++ x : BitVec 8) &&& 0xc0 = 0x80 ∧
    (9#4 ++ x : BitVec 8) &&& 0xf0 = 0x90 ∧
    ((9#4 ++ x : BitVec 8) ≠ 0x9d ∧ (9#4 ++ x : BitVec 8) ≠ 0x9f ↔ ¬ (x = 13 ∨ x = 15)) ∧
    ((9#4 ++ x : BitVec 8) = 0x97 ↔ x = 7) ∧ ((9#4 ++ x : BitVec 8) &&& 0x0f).setWidth 4 = x := by
  decide

theorem popR4_op : ∀ x : BitVec 3, (20#5 ++ x : BitVec 8) &&& 0xc0 = 0x80 ∧
    (20#5 ++ x : BitVec 8) &&& 0xf0 = 0xa0 ∧ (20#5 ++ x : BitVec 8) &&& 0xf8 = 0xa0 ∧
    allRegs.filter (inMask
      ((0x0ff0#32 >>> (7 - ((20#5 ++ x : BitVec 8) &&& 0x07).toNat)) &&& 0x0ff0)) =
      allRegs.filter fun i => 4 ≤ i.toNat ∧ i.toNat ≤ 4 + x.toNat ∨ false = true ∧ i = 14 := by
  decide

theorem popR4Lr_op : ∀ x : BitVec 3, (21#5 ++ x : BitVec 8) &&& 0xc0 = 0x80 ∧
    (21#5 ++ x : BitVec 8) &&& 0xf0 = 0xa0 ∧ (21#5 ++ x : BitVec 8) &&& 0xf8 = 0xa8 ∧
    allRegs.filter (inMask
      (((0x0ff0#32 >>> (7 - ((21#5 ++ x : BitVec 8) &&& 0x07).toNat)) &&& 0x0ff0) ||| 0x4000)) =
      allRegs.filter fun i => 4 ≤ i.toNat ∧ i.toNat ≤ 4 + x.toNat ∨ true = true ∧ i = 14 := by
  decide

theorem popLow_op : ∀ x : BitVec 4,
    ((0#4 ++ x : BitVec 8) ≠ 0 ∧ (0#4 ++ x : BitVec 8) &&& 0xf0 = 0 ↔ x ≠ 0) ∧
    15 ∉ Insn.registers 0 x ∧
    allRegs.filter (inMask ((0#4 ++ x : BitVec 8).setWidth 32)) = Insn.registers 0 x := by
  decide

theorem popVfpX8_op : ∀ x : BitVec 3, (23#5 ++ x : BitVec 8) &&& 0xc0 = 0x80 ∧
    (23#5 ++ x : BitVec 8) &&& 0xf0 = 0xb0 ∧ (23#5 ++ x : BitVec 8) &&& 0xf8 = 0xb8 ∧
    (23#5 ++ x : BitVec 8) ≠ 0xb0 ∧ (23#5 ++ x : BitVec 8) ≠ 0xb1 ∧ (23#5 ++ x : BitVec 8) ≠ 0xb2 ∧
    (23#5 ++ x : BitVec 8) ≠ 0xb3 ∧
    (((23#5 ++ x : BitVec 8) &&& 0x07).setWidth 32 : Word32) = x.setWidth 32 := by
  decide

theorem popWr10_op : ∀ x : BitVec 3, (24#5 ++ x : BitVec 8) &&& 0xc0 = 0xc0 ∧
    (24#5 ++ x : BitVec 8) &&& 0xf0 = 0xc0 ∧ (24#5 ++ x : BitVec 8) &&& 0xf8 = 0xc0 ∧
    (24#5 ++ x : BitVec 8) ≠ 0xb0 ∧ (24#5 ++ x : BitVec 8) ≠ 0xb1 ∧ (24#5 ++ x : BitVec 8) ≠ 0xb2 ∧
    (24#5 ++ x : BitVec 8) ≠ 0xb3 ∧
    (((24#5 ++ x : BitVec 8) &&& 0x07).setWidth 32 : Word32) = x.setWidth 32 := by
  decide

theorem popVfp8_op : ∀ x : BitVec 3, (26#5 ++ x : BitVec 8) &&& 0xc0 = 0xc0 ∧
    (26#5 ++ x : BitVec 8) &&& 0xf0 = 0xd0 ∧ (26#5 ++ x : BitVec 8) &&& 0xf8 = 0xd0 ∧
    (∀ y ∈ [0xb0, 0xb1, 0xb2, 0xb3, 0xc6, 0xc7, 0xc8, 0xc9], (26#5 ++ x : BitVec 8) ≠ y) ∧
    (((26#5 ++ x : BitVec 8) &&& 0x07).setWidth 32 : Word32) = x.setWidth 32 := by
  decide

theorem operand_low (s c : BitVec 4) :
    (((s ++ c : BitVec 8) &&& 0x0f).setWidth 32 : Word32) = c.setWidth 32 := by
  revert s c
  decide

theorem popHigh_mask (mask : BitVec 12) :
    ((mask.extractLsb' 8 4).setWidth 32 <<< 12 ||| (mask.extractLsb' 0 8).setWidth 32 <<< 4 : Word32) =
      mask.setWidth 32 <<< 4 := by
  ext i hi
  simp only [BitVec.getElem_or, BitVec.getElem_shiftLeft, BitVec.getElem_setWidth,
    BitVec.getLsbD_extractLsb', Nat.zero_add]
  by_cases h4 : i < 4
  · simp [h4, show i < 12 by omega]
  · by_cases h12 : i < 12
    · simp [h4, h12, show i - 4 < 8 by omega]
    · simp [h4, h12, show ¬ i - 4 < 8 by omega, show 8 + (i - 12) = i - 4 by omega]
      intro h
      by_contra hc
      rw [BitVec.getLsbD_of_ge _ _ (by omega)] at h
      cases h

theorem shifted_eq_zero (mask : BitVec 12) : (mask.setWidth 32 <<< 4 : Word32) = 0 ↔ mask = 0 := by
  rw [BitVec.toNat_eq, BitVec.toNat_eq, BitVec.toNat_shiftLeft, BitVec.toNat_setWidth,
    Nat.shiftLeft_eq]
  have := mask.isLt
  show _ = 0 ↔ _ = 0
  omega

theorem filter_inMask (mask : BitVec 12) :
    allRegs.filter (inMask (mask.setWidth 32 <<< 4)) = Insn.registers 4 mask := by
  rw [Insn.registers]
  congr 1
  funext i
  rw [inMask, BitVec.getLsbD_shiftLeft, BitVec.getLsbD_setWidth]
  have := i.isLt
  by_cases h4 : i.toNat < 4
  · simp [h4, show ¬ 4 ≤ i.toNat by omega]
  · simp [h4, show 4 ≤ i.toNat by omega, show i.toNat < 32 by omega, show i.toNat - 4 < 32 by omega]

theorem ulebDigit (d : BitVec 7) : ((1#1 ++ d : BitVec 8) &&& 0x7f).setWidth 32 = d.setWidth 32 ∧
    (1#1 ++ d : BitVec 8) &&& 0x80 ≠ 0 ∧ ((0#1 ++ d : BitVec 8) &&& 0x7f).setWidth 32 = d.setWidth 32 ∧
    (0#1 ++ d : BitVec 8) &&& 0x80 = 0 := by
  revert d
  decide

/-- A digit goes above the bits that were read before. -/
theorem or_digit {value : Word32} {shift : ℕ} (hv : value.toNat < 2 ^ shift) (d : BitVec 7) :
    value ||| d.setWidth 32 <<< shift = value + BitVec.ofNat 32 (2 ^ shift * d.toNat) := by
  have e : BitVec.ofNat 32 (2 ^ shift * d.toNat) = d.setWidth 32 <<< shift := by
    apply BitVec.eq_of_toNat_eq
    rw [BitVec.toNat_ofNat, BitVec.toNat_shiftLeft, BitVec.toNat_setWidth_of_le (by omega),
      Nat.shiftLeft_eq, Nat.mul_comm]
  rw [e, BitVec.add_eq_or_of_and_eq_zero]
  ext i hi
  simp only [BitVec.getElem_and, BitVec.getElem_shiftLeft, BitVec.getElem_zero]
  by_cases h : i < shift
  · simp [h]
  · have h0 : value.getLsbD i = false :=
      Nat.testBit_lt_two_pow (Nat.lt_of_lt_of_le hv (Nat.pow_le_pow_right (by omega) (by omega)))
    rw [← BitVec.getLsbD_eq_getElem, h0, Bool.false_and]

theorem uleb_eq {digits : List (BitVec 7)} {last : BitVec 7} {f : Word32 → Exec → Except Stop Next}
    {rounds : ℕ} {value : Word32} {shift : ℕ} {e : Exec} {s' : Stream}
    (hy : Yields m (digits.map (1#1 ++ ·) ++ [0#1 ++ last]) e.stream s')
    (hsize : digits.length + 1 ≤ e.size) (hrounds : digits.length < rounds)
    (hshift : shift + 7 * digits.length < 32) (hvalue : value.toNat < 2 ^ shift) :
    e.uleb m f rounds value shift =
      f (value + BitVec.ofNat 32 (2 ^ shift * ulebValue digits last))
        { e with stream := s', size := e.size - (digits.length + 1) } := by
  induction digits generalizing rounds value shift e with
  | nil =>
    obtain ⟨rounds, rfl⟩ := Nat.exists_eq_succ_of_ne_zero (Nat.ne_of_gt (Nat.zero_lt_of_lt hrounds))
    obtain ⟨-, -, h3, h4⟩ := ulebDigit last
    rw [Exec.uleb, withOperand_of_yields hy hsize]
    dsimp only
    rw [if_neg (not_not.2 h4), h3, or_digit hvalue]
    rfl
  | cons d ds ih =>
    obtain ⟨rounds, rfl⟩ := Nat.exists_eq_succ_of_ne_zero (Nat.ne_of_gt (Nat.zero_lt_of_lt hrounds))
    rw [List.length_cons] at hsize hrounds hshift
    obtain ⟨h1, h2, -, -⟩ := ulebDigit d
    obtain ⟨t, hy', ho⟩ := operand_of_yields hy (by simpa using hsize)
    have hlt : (value + BitVec.ofNat 32 (2 ^ shift * d.toNat)).toNat < 2 ^ (shift + 7) := by
      have hd : 2 ^ shift * d.toNat ≤ 2 ^ shift * 127 := Nat.mul_le_mul_left _ (by omega)
      have hpow : 2 ^ (shift + 7) = 2 ^ shift * 128 := Nat.pow_add 2 shift 7
      have hmod := Nat.mod_le (2 ^ shift * d.toNat) (2 ^ 32)
      have hmod' := Nat.mod_le (value.toNat + 2 ^ shift * d.toNat % 2 ^ 32) (2 ^ 32)
      rw [BitVec.toNat_add, BitVec.toNat_ofNat]
      omega
    rw [Exec.uleb, Exec.withOperand, ho, ok_bind]
    dsimp only
    rw [if_pos h2, h1, or_digit hvalue, ih (e := { e with stream := t, size := e.size - 1 }) hy'
      (by simp only; omega) (by omega) (by omega) hlt]
    congr 1
    · rw [BitVec.add_assoc, ← BitVec.ofNat_add, ulebValue, Nat.mul_add, Nat.pow_add, Nat.mul_assoc]
    · simp only [List.length_cons, Nat.sub_sub, Nat.add_comm 1]

/-- What the interpreter does at an instruction, with its operands next in the stream. -/
def Insn.Obeyed (m : Memory) (i : Insn) : Prop :=
  ∀ {op : BitVec 8} {args : List (BitVec 8)}, i.bytes = op :: args → ∀ {e : Exec} {s' : Stream},
    Yields m args e.stream s' → args.length ≤ e.size →
      execOp m op e = i.effect.next m { e with stream := s', size := e.size - args.length }

/-- An instruction of one byte. -/
theorem Insn.Obeyed.of_byte {i : Insn} {op : BitVec 8} (hb : i.bytes = [op])
    (h : ∀ e, execOp m op e = i.effect.next m e) : i.Obeyed m := by
  intro op' args hb' e s' hy _
  rw [hb] at hb'
  cases hb'
  obtain rfl : s' = e.stream := hy
  exact h e

/-- An instruction with one operand. -/
theorem Insn.Obeyed.of_operand {i : Insn} {op x : BitVec 8} (hb : i.bytes = [op, x])
    {f : Exec → BitVec 8 → Exec → Except Stop Next}
    (hop : ∀ e, execOp m op e = e.withOperand m (f e))
    (h : ∀ e s n, f e x { e with stream := s, size := n } =
      i.effect.next m { e with stream := s, size := n }) : i.Obeyed m := by
  intro op' args hb' e s' hy hsize
  rw [hb] at hb'
  cases hb'
  rw [hop, withOperand_of_yields hy hsize]
  exact h e s' _

theorem obeyed_vspUp (x : BitVec 6) : (Insn.vspUp x).Obeyed m := by
  refine Insn.Obeyed.of_byte rfl fun e => ?_
  obtain ⟨h1, h2⟩ := vspUp_op x
  rw [execOp, if_pos h1, BitVec.add_assoc, h2]
  rfl

theorem obeyed_vspDown (x : BitVec 6) : (Insn.vspDown x).Obeyed m := by
  refine Insn.Obeyed.of_byte rfl fun e => ?_
  obtain ⟨h1, h2⟩ := vspDown_op x
  have hsub : ∀ a b : Word32, a - b - 4 = a + -(b + 4) := by
    intro a b
    rw [BitVec.sub_sub, BitVec.sub_eq_add_neg]
  rw [execOp, h1, if_neg (by decide), if_pos rfl, hsub, h2]
  rfl

theorem obeyed_popHigh (mask : BitVec 12) : (Insn.popHigh mask).Obeyed m := by
  refine Insn.Obeyed.of_operand rfl (f := fun e op2 e' =>
    if (mask.extractLsb' 8 4).setWidth 32 <<< 12 ||| op2.setWidth 32 <<< 4 ≠ (0 : Word32) then
      e'.pop m ((mask.extractLsb' 8 4).setWidth 32 <<< 12 ||| op2.setWidth 32 <<< 4)
        (e'.pcWasSet || BitVec.getLsbD
          ((mask.extractLsb' 8 4).setWidth 32 <<< 12 ||| op2.setWidth 32 <<< 4 : Word32) 15)
    else .ok (.fail e'.regs)) (fun e => ?_) fun e s n => ?_
  · obtain ⟨h1, h2, h3⟩ := popHigh_op (mask.extractLsb' 8 4)
    rw [execOp, h1, h2, h3, if_neg (by decide), if_neg (by decide), if_pos rfl]
  · dsimp only
    rw [popHigh_mask, Insn.effect]
    by_cases h0 : mask = 0
    · rw [if_neg (not_not.2 ((shifted_eq_zero mask).2 h0)), if_pos h0]
      rfl
    · rw [if_pos (mt (shifted_eq_zero mask).1 h0), if_neg h0, pop_eq (filter_inMask mask)]
      rw [← filter_inMask]
      simp only [List.mem_filter, mem_allRegs, true_and, Bool.decide_eq_true]
      rfl

theorem obeyed_setVsp (r : Reg) : (Insn.setVsp r).Obeyed m := by
  refine Insn.Obeyed.of_byte rfl fun e => ?_
  obtain ⟨h1, h2, h3, h4, h5⟩ := setVsp_op r
  rw [execOp, h1, h2, if_neg (by decide), if_neg (by decide), if_neg (by decide), if_pos rfl, h5]
  by_cases hr : r = 13 ∨ r = 15
  · rw [if_neg (fun h => h3.1 h hr), Insn.effect, if_pos hr]
    rfl
  · rw [if_pos (h3.2 hr), Insn.effect, if_neg hr, Effect.next, vspOf]
    by_cases h7 : r = 7 ∧ e.regs 7 &&& 0xffff0000 = 0
    · rw [if_pos ⟨h4.2 h7.1, h7.2⟩, if_pos h7]
    · rw [if_neg (fun h => h7 ⟨h4.1 h.1, h.2⟩), if_neg h7]

theorem obeyed_popR4 (n : BitVec 3) : (Insn.popR4 false n).Obeyed m := by
  refine Insn.Obeyed.of_byte rfl fun e => ?_
  obtain ⟨h1, h2, h3, h4⟩ := popR4_op n
  rw [execOp]
  simp only [if_false, Bool.false_eq_true]
  rw [h1, h2, h3, if_neg (by decide), if_neg (by decide), if_neg (by decide), if_neg (by decide),
    if_pos rfl, pop_eq h4 (by have := n.isLt; simp; omega)]
  rfl

theorem obeyed_popR4Lr (n : BitVec 3) : (Insn.popR4 true n).Obeyed m := by
  refine Insn.Obeyed.of_byte rfl fun e => ?_
  obtain ⟨h1, h2, h3, h4⟩ := popR4Lr_op n
  rw [execOp]
  simp only [if_true]
  rw [h1, h2, h3, if_neg (by decide), if_neg (by decide), if_neg (by decide), if_neg (by decide),
    if_neg (by decide), if_pos rfl, pop_eq h4 (by have := n.isLt; simp; omega)]
  rfl

theorem obeyed_popLow (mask : BitVec 4) : (Insn.popLow mask).Obeyed m := by
  refine Insn.Obeyed.of_operand rfl (f := fun _ op2 e' =>
    if op2 ≠ 0 ∧ op2 &&& 0xf0 = 0 then e'.pop m (op2.setWidth 32) e'.pcWasSet
    else .ok (.fail e'.regs)) (fun _ => rfl) fun e s n => ?_
  obtain ⟨h1, h2, h3⟩ := popLow_op mask
  dsimp only
  by_cases h0 : mask = 0
  · rw [if_neg (fun h => h1.1 h h0), Insn.effect, if_pos h0]
    rfl
  · rw [if_pos (h1.2 h0), Insn.effect, if_neg h0, pop_eq h3
      (by rw [decide_eq_false h2, Bool.or_false])]

theorem obeyed_vspBig {digits : List (BitVec 7)} {last : BitVec 7} (hk : digits.length ≤ 4) :
    (Insn.vspBig digits last).Obeyed m := by
  intro op args hb e s' hy hsize
  obtain ⟨rfl, rfl⟩ : 0xb2 = op ∧ digits.map (1#1 ++ ·) ++ [0#1 ++ last] = args := by
    simpa [Insn.bytes] using hb
  have hlen : (digits.map (1#1 ++ ·) ++ [0#1 ++ last]).length = digits.length + 1 := by simp
  have h : execOp m 0xb2 e = e.uleb m
    (fun value e => .ok (.go (e.setSp (e.regs.sp + value <<< 2 + 0x204)))) (e.size + 1) 0 0 := rfl
  rw [hlen] at hsize ⊢
  rw [h, uleb_eq hy hsize (by omega) (by omega) (by decide)]
  have hv : ∀ a v : Word32, a + v <<< 2 + 0x204 = a + (0x204 + v * 4) := by
    intro a v
    apply BitVec.eq_of_toNat_eq
    simp only [BitVec.toNat_add, BitVec.toNat_shiftLeft, BitVec.toNat_mul, Nat.shiftLeft_eq]
    show (_ + 516) % _ = (_ + (516 + _ * 4 % _) % _) % _
    omega
  rw [hv, Nat.pow_zero, Nat.one_mul, show ∀ y : Word32, 0 + y = y from BitVec.zero_add]
  rfl

theorem obeyed_popVfpX8 (n : BitVec 3) : (Insn.popVfpX8 n).Obeyed m := by
  refine Insn.Obeyed.of_byte rfl fun e => ?_
  obtain ⟨h1, h2, h3, h4, h5, h6, h7, h8⟩ := popVfpX8_op n
  rw [execOp, h1, h2, h3, if_neg (by decide), if_neg (by decide), if_neg (by decide),
    if_neg (by decide), if_neg (by decide), if_neg (by decide), if_neg h4, if_neg h5, if_neg h6,
    if_neg h7, if_pos rfl, h8, BitVec.add_assoc]
  rfl

theorem obeyed_popWr10 (n : BitVec 3) : (Insn.popWr10 n).Obeyed m := by
  refine Insn.Obeyed.of_byte rfl fun e => ?_
  obtain ⟨h1, h2, h3, h4, h5, h6, h7, h8⟩ := popWr10_op n
  rw [execOp, h1, h2, h3, if_neg (by decide), if_neg (by decide), if_neg (by decide),
    if_neg (by decide), if_neg (by decide), if_neg (by decide), if_neg h4, if_neg h5, if_neg h6,
    if_neg h7, if_neg (by decide), if_pos rfl, h8, BitVec.add_assoc]
  rfl

theorem obeyed_popVfp8 (n : BitVec 3) : (Insn.popVfp8 n).Obeyed m := by
  refine Insn.Obeyed.of_byte rfl fun e => ?_
  obtain ⟨h1, h2, h3, h4, h8⟩ := popVfp8_op n
  simp only [List.forall_mem_cons] at h4
  obtain ⟨hb0, hb1, hb2, hb3, hc6, hc7, hc8, hc9, -⟩ := h4
  rw [execOp, h1, h2, h3, if_neg (by decide), if_neg (by decide), if_neg (by decide),
    if_neg (by decide), if_neg (by decide), if_neg (by decide), if_neg hb0, if_neg hb1, if_neg hb2,
    if_neg hb3, if_neg (by decide), if_neg (by decide), if_neg hc6, if_neg hc7, if_neg hc8,
    if_neg hc9, if_pos rfl, h8, BitVec.add_assoc]
  rfl

/-- The three pops of VFP registers with an operand `sssscccc` differ in the words that they
    add to `c` registers. -/
theorem obeyed_vfp {i : Insn} {op : BitVec 8} {s c : BitVec 4} {w : Word32}
    (hb : i.bytes = [op, s ++ c]) (hi : i.effect = .add (c.setWidth 32 * 8 + w))
    (hop : ∀ e, execOp m op e = e.withOperand m fun op2 e' =>
      .ok (.go (e'.setSp (e.regs.sp + (op2 &&& 0x0f).setWidth 32 * 8 + w)))) : i.Obeyed m := by
  refine Insn.Obeyed.of_operand hb hop fun e t n => ?_
  rw [operand_low, BitVec.add_assoc, hi]
  rfl

/-- **The interpreter obeys** the instructions that it knows. -/
theorem Insn.Known.obeyed {i : Insn} (hk : i.Known) : i.Obeyed m := by
  cases i with
  | vspUp x => exact obeyed_vspUp x
  | vspDown x => exact obeyed_vspDown x
  | popHigh mask => exact obeyed_popHigh mask
  | setVsp r => exact obeyed_setVsp r
  | popR4 lr n =>
    cases lr with
    | false => exact obeyed_popR4 n
    | true => exact obeyed_popR4Lr n
  | finish => exact Insn.Obeyed.of_byte rfl fun _ => rfl
  | popLow mask => exact obeyed_popLow mask
  | vspBig digits last => exact obeyed_vspBig hk
  | popVfpX s c => exact obeyed_vfp rfl rfl fun _ => rfl
  | popVfpX8 n => exact obeyed_popVfpX8 n
  | popWr10 n => exact obeyed_popWr10 n
  | popWr | popWcgr => exact hk.elim
  | popVfp16 s c => exact obeyed_vfp rfl rfl fun _ => rfl
  | popVfp s c => exact obeyed_vfp rfl rfl fun _ => rfl
  | popVfp8 n => exact obeyed_popVfp8 n

/-! ## Programs -/

theorem runs_cons (m : Memory) (x : Effect) (xs : List Effect) (e : Exec) :
    Effect.runs m vspOf (x :: xs) e.pcWasSet e.regs = do
      match ← x.next m e with
      | .go e => Effect.runs m vspOf xs e.pcWasSet e.regs
      | .finish e => return (true, e.finish)
      | .fail r => return (false, r) := by
  cases x with
  | add n => rfl
  | set r => rfl
  | pop rs =>
    rw [Effect.next, Effect.runs]
    rcases popRegs m rs e.regs.sp e.regs with s | ⟨_ | _, r⟩ <;> rfl
  | finish => rfl
  | refuse => rfl

/-- Where the virtual stack pointer is not set to r7 the value of `r[nnnn]` is that of the
    register. -/
theorem runs_of_not_mem {es : List Effect} (h : .set 7 ∉ es) (pcWasSet : Bool) (r : Gregs) :
    Effect.runs m vspOf es pcWasSet r = Effect.runs m (fun g i => g i) es pcWasSet r := by
  induction es generalizing pcWasSet r with
  | nil => rfl
  | cons x es ih =>
    rw [List.mem_cons, not_or] at h
    cases x with
    | add n => exact ih h.2 _ _
    | set i =>
      have hi : i ≠ 7 := fun e => h.1 (e ▸ rfl)
      rw [Effect.runs, Effect.runs, vspOf, if_neg (fun hh => hi hh.1), ih h.2]
    | pop rs =>
      rw [Effect.runs, Effect.runs]
      congr 1
      funext ⟨b, r'⟩
      cases b with
      | false => rfl
      | true => exact ih h.2 _ _
    | finish => rfl
    | refuse => rfl

theorem Insn.exists_bytes (i : Insn) : ∃ op args, i.bytes = op :: args := by
  cases i <;> exact ⟨_, _, rfl⟩

theorem next_go {x : Effect} {e e' : Exec} (h : x.next m e = .ok (.go e')) :
    e'.stream = e.stream ∧ e'.size = e.size := by
  cases x with
  | add n | set r =>
    cases h
    exact ⟨rfl, rfl⟩
  | pop rs =>
    rw [Effect.next] at h
    rcases hp : popRegs m rs e.regs.sp e.regs with s | ⟨_ | _, r⟩ <;> rw [hp] at h <;> cases h
    exact ⟨rfl, rfl⟩
  | finish => cases h
  | refuse => cases h

/-- **The interpreter follows the table**, when the instructions of a program are what
    is left of the stream. -/
theorem execLoop_eq {is : List Insn} (hk : ∀ i ∈ is, i.Known) {e : Exec} {s' : Stream}
    (hy : Yields m (is.flatMap Insn.bytes) e.stream s')
    (hsize : (is.flatMap Insn.bytes).length = e.size) {rounds : ℕ} (hr : is.length < rounds) :
    execLoop m rounds e = Effect.runs m vspOf (is.map Insn.effect) e.pcWasSet e.regs := by
  induction is generalizing e rounds with
  | nil =>
    have h0 : e.size = 0 := hsize.symm
    obtain ⟨rounds, rfl⟩ := Nat.exists_eq_succ_of_ne_zero (Nat.ne_of_gt hr)
    rw [execLoop, if_pos h0]
    rfl
  | cons i is ih =>
    rw [List.forall_mem_cons] at hk
    obtain ⟨rounds, rfl⟩ := Nat.exists_eq_succ_of_ne_zero (Nat.ne_of_gt (Nat.zero_lt_of_lt hr))
    obtain ⟨op, args, hb⟩ := i.exists_bytes
    rw [List.flatMap_cons, hb, List.cons_append] at hy hsize
    rw [List.length_cons, List.length_append] at hsize
    obtain ⟨t, hy', ho⟩ := operand_of_yields hy (by rw [List.length_append]; omega)
    obtain ⟨u, hargs, hrest⟩ := hy'.append
    rw [execLoop, if_neg (by omega), ho, ok_bind]
    dsimp only
    have hx := hk.1.obeyed hb (e := { e with stream := t, size := e.size - 1 }) hargs
      (by simp only; omega)
    rw [hx, List.map_cons]
    -- the state for the instruction differs in the stream alone
    have hstart := runs_cons m i.effect (is.map Insn.effect)
      { e with stream := u, size := e.size - 1 - args.length }
    refine Eq.trans ?_ hstart.symm
    cases hn : i.effect.next m { e with stream := u, size := e.size - 1 - args.length } with
    | error s => rfl
    | ok next =>
      cases next with
      | go e₂ =>
        obtain ⟨h1, h2⟩ := next_go hn
        exact ih hk.2 (by rw [h1]; exact hrest) (by rw [h2]; simp only; omega) (by simpa using hr)
      | finish e₂ => rfl
      | fail r => rfl

/-! ## Shadowed opcodes -/

/-- What the code takes an instruction for: the test for `11000nnn` comes before those
    for `0xc6` and `0xc7`, and the operand is the next instruction. -/
def Insn.taken : Insn → List Insn
  | popWr s c =>
    [popWr10 6, if s.getLsbD 2 then vspDown (s.setWidth 2 ++ c) else vspUp (s.setWidth 2 ++ c)]
  | popWcgr mask => [popWr10 7, vspUp (0#2 ++ mask)]
  | i => [i]

/-- The instructions of the table; the operand of `popWr` names a low register. -/
def Insn.Listed : Insn → Prop
  | popWr s _ => s.msb = false
  | popWcgr _ => True
  | i => i.Known

theorem taken_bytes {i : Insn} (h : i.Listed) :
    i.taken.flatMap Insn.bytes = i.bytes ∧ ∀ i' ∈ i.taken, i'.Known := by
  have hc6 : (24#5 ++ 6#3 : BitVec 8) = 0xc6 := by decide
  have hc7 : (24#5 ++ 7#3 : BitVec 8) = 0xc7 := by decide
  have hwr : ∀ s c : BitVec 4, s.msb = false → s.getLsbD 2 = false →
      0#2 ++ (s.setWidth 2 ++ c) = s ++ c := by
    decide
  have hwr' : ∀ s c : BitVec 4, s.msb = false → s.getLsbD 2 = true →
      1#2 ++ (s.setWidth 2 ++ c) = s ++ c := by
    decide
  have hwcgr : ∀ x : BitVec 4, 0#2 ++ (0#2 ++ x) = 0#4 ++ x := by decide
  cases i with
  | popWr s c =>
    have hmsb : s.msb = false := h
    cases hs : s.getLsbD 2 with
    | true =>
      have e : (Insn.popWr s c).taken = [.popWr10 6, .vspDown (s.setWidth 2 ++ c)] := by
        rw [Insn.taken, hs, if_pos rfl]
      rw [e]
      refine ⟨?_, by simp [Insn.Known]⟩
      exact congrArg₂ (fun x y => [x, y]) hc6 (hwr' s c hmsb hs)
    | false =>
      have e : (Insn.popWr s c).taken = [.popWr10 6, .vspUp (s.setWidth 2 ++ c)] := by
        rw [Insn.taken, hs, if_neg (by decide)]
      rw [e]
      refine ⟨?_, by simp [Insn.Known]⟩
      exact congrArg₂ (fun x y => [x, y]) hc6 (hwr s c hmsb hs)
  | popWcgr mask =>
    refine ⟨?_, by simp [Insn.taken, Insn.Known]⟩
    exact congrArg₂ (fun x y => [x, y]) hc7 (hwcgr mask)
  | _ =>
    refine ⟨List.append_nil _, fun i' hi' => ?_⟩
    rw [List.mem_singleton.1 hi']
    exact h

theorem flatMap_taken {is : List Insn} (hl : ∀ i ∈ is, i.Listed) :
    (is.flatMap Insn.taken).flatMap Insn.bytes = is.flatMap Insn.bytes ∧
      ∀ i ∈ is.flatMap Insn.taken, i.Known := by
  constructor
  · rw [List.flatMap_assoc]
    exact List.flatMap_congr fun i hi => (taken_bytes (hl i hi)).1
  · intro i' hi'
    obtain ⟨i, hi, h⟩ := List.mem_flatMap.1 hi'
    exact (taken_bytes (hl i hi)).2 i' h

theorem length_le_bytes (is : List Insn) : is.length ≤ (is.flatMap Insn.bytes).length := by
  induction is with
  | nil => exact Nat.le_refl _
  | cons i is ih =>
    obtain ⟨op, args, hb⟩ := i.exists_bytes
    rw [List.flatMap_cons, hb, List.length_append, List.length_cons, List.length_cons]
    omega

/-! ## Data of handlers -/

/-- The bytes of a word in the order of the stream. -/
def wordBytes (w : Word32) : List (BitVec 8) :=
  [w.extractLsb' 24 8, w.extractLsb' 16 8, w.extractLsb' 8 8, w.extractLsb' 0 8]

/-- From `h` on the words `ws` can be read. -/
def Words (m : Memory) (h : Word32) (ws : List Word32) : Prop :=
  ∀ i (hi : i < ws.length), ws[i] ≠ 0xdeadaee0 ∧ m.word (h + BitVec.ofNat 32 (4 * i)) = some ws[i]

theorem mod_four {x : Word32} {k : ℕ} (hk : k < 4) (h : x.toNat % 4 = k) :
    x &&& 3 = BitVec.ofNat 32 k := by
  apply BitVec.eq_of_toNat_eq
  rw [BitVec.toNat_and, BitVec.toNat_ofNat, Nat.mod_eq_of_lt (by omega)]
  exact (Nat.and_two_pow_sub_one_eq_mod _ 2).trans h

theorem yields_of_words {h : Word32} (h4 : h.toNat % 4 = 0) {ws : List Word32} (hw : Words m h ws)
    (w : Word32) : ∃ s', Yields m (ws.flatMap wordBytes) ⟨h, w⟩ s' := by
  induction ws generalizing h w with
  | nil => exact ⟨_, rfl⟩
  | cons v ws ih =>
    obtain ⟨hv, e⟩ := hw 0 (by simp)
    rw [Nat.mul_zero, show h + BitVec.ofNat 32 0 = h from BitVec.add_zero _] at e
    have hadd : ∀ k : ℕ, k < 2 ^ 32 → (h + BitVec.ofNat 32 k).toNat = (h.toNat + k) % 2 ^ 32 := by
      intro k hk
      rw [BitVec.toNat_add, BitVec.toNat_ofNat, Nat.mod_eq_of_lt hk]
    have hnext : ∀ k, h + BitVec.ofNat 32 k + 1 = h + BitVec.ofNat 32 (k + 1) := by
      intro k
      rw [BitVec.add_assoc, BitVec.ofNat_add]
      rfl
    have hmod : ∀ k < 4, h + BitVec.ofNat 32 k &&& 3 = BitVec.ofNat 32 k := by
      intro k hk
      refine mod_four hk ?_
      rw [hadd k (by omega)]
      omega
    obtain ⟨s', hs'⟩ := ih (h := h + BitVec.ofNat 32 4) (by rw [hadd 4 (by omega)]; omega)
      (fun i hi => by
      have := hw (i + 1) (by simpa using hi)
      rw [BitVec.add_assoc, ← BitVec.ofNat_add, show 4 + 4 * i = 4 * (i + 1) by omega]
      exact this) v
    refine ⟨s', ⟨h + BitVec.ofNat 32 1, v⟩, ?_, ⟨h + BitVec.ofNat 32 2, v⟩, ?_,
      ⟨h + BitVec.ofNat 32 3, v⟩, ?_, ⟨h + BitVec.ofNat 32 4, v⟩, ?_, hs'⟩
    · have h0 : h &&& 3 = 0 := mod_four (k := 0) (by omega) h4
      rw [tryNextByte]
      dsimp only
      rw [if_pos h0, tryGetWord_of_word h4 e hv]
      rfl
    · rw [tryNextByte]
      dsimp only
      rw [hmod 1 (by omega), if_neg (by decide), if_pos (by decide), hnext]
    · rw [tryNextByte]
      dsimp only
      rw [hmod 2 (by omega), if_neg (by decide), if_neg (by decide), if_pos (by decide), hnext]
    · rw [tryNextByte]
      dsimp only
      rw [hmod 3 (by omega), if_neg (by decide), if_neg (by decide), if_neg (by decide), hnext]

/-- The data of a handler in the formats 0, 1 and 2, with the program `is`. -/
def HandlerData (m : Memory) (h : Word32) (is : List Insn) : Prop :=
  h.toNat % 4 = 0 ∧ ∃ ws, Words m h ws ∧
    (ws.flatMap wordBytes = 0x80 :: is.flatMap Insn.bytes ∧ ws.length = 1 ∨
      ∃ pr n : BitVec 8, (pr = 0x81 ∨ pr = 0x82) ∧
        ws.flatMap wordBytes = pr :: n :: is.flatMap Insn.bytes ∧ ws.length = n.toNat + 1)

theorem wordBytes_length (ws : List Word32) : (ws.flatMap wordBytes).length = 4 * ws.length := by
  induction ws with
  | nil => rfl
  | cons w ws ih =>
    rw [List.flatMap_cons, List.length_append, ih, List.length_cons]
    show 4 + _ = _
    omega

/-- A handler with a program that the interpreter knows. -/
theorem runHandler_known {h : Word32} {is : List Insn} (hd : HandlerData m h is)
    (hk : ∀ i ∈ is, i.Known) (r : Gregs) :
    runHandler m r h = Effect.runs m vspOf (is.map Insn.effect) false r := by
  obtain ⟨h4, ws, hw, hbytes⟩ := hd
  obtain ⟨s', hy⟩ := yields_of_words h4 hw 0
  have hlen := wordBytes_length ws
  have hrounds := length_le_bytes is
  rcases hbytes with ⟨e, hn⟩ | ⟨pr, n, hpr, e, hn⟩
  · rw [e] at hy hlen
    rw [List.length_cons] at hlen
    obtain ⟨t, ht, hy⟩ := hy
    rw [runHandler, ht, ok_bind]
    dsimp only
    rw [if_neg (by decide), executePersonalityRoutine, if_pos (by decide)]
    exact execLoop_eq hk hy (by simp only; omega) (by omega)
  · rw [e] at hy hlen
    rw [List.length_cons, List.length_cons] at hlen
    obtain ⟨t, ht, u, hu, hy⟩ := hy
    have hfour : pr &&& 0xf0 = 0x80 := by rcases hpr with rfl | rfl <;> decide
    have hnot : ¬ pr &&& 0x0f = 0 := by rcases hpr with rfl | rfl <;> decide
    have hin : pr &&& 0x0f = 1 ∨ pr &&& 0x0f = 2 := by rcases hpr with rfl | rfl <;> decide
    rw [runHandler, ht, ok_bind]
    dsimp only
    rw [if_neg (not_not.2 hfour), executePersonalityRoutine, if_neg hnot, if_pos hin, hu, ok_bind]
    exact execLoop_eq hk hy (by simp only; omega) (by omega)

theorem set_effect {i : Insn} (h : i.effect = .set 7) : i = .setVsp 7 := by
  cases i with
  | setVsp r =>
    rw [Insn.effect] at h
    split at h
    · cases h
    · cases h
      rfl
  | popHigh | popLow | popWcgr =>
    rw [Insn.effect] at h
    split at h <;> cases h
  | _ => cases h

/-- **A handler runs its program.**  The code runs any known instructions that the bytes of
    the program spell, with r12 for an r7 that is no stack pointer; without the
    instructions that it reads in its own way these are the program, with the meaning of
    the table. -/
theorem runHandler_eq {h : Word32} {is : List Insn} (hd : HandlerData m h is) (r : Gregs) :
    (∀ js : List Insn, js.flatMap Insn.bytes = is.flatMap Insn.bytes → (∀ j ∈ js, j.Known) →
      runHandler m r h = Effect.runs m vspOf (js.map Insn.effect) false r) ∧
    ((∀ i ∈ is, i.Listed) →
      runHandler m r h = Effect.runs m vspOf ((is.flatMap Insn.taken).map Insn.effect) false r) ∧
    ((∀ i ∈ is, i.Known) → .setVsp 7 ∉ is →
      runHandler m r h = Effect.runs m (fun g i => g i) (is.map Insn.effect) false r) := by
  have hspell : ∀ js : List Insn, js.flatMap Insn.bytes = is.flatMap Insn.bytes →
      (∀ j ∈ js, j.Known) →
      runHandler m r h = Effect.runs m vspOf (js.map Insn.effect) false r := by
    intro js hbytes hk
    refine runHandler_known ?_ hk r
    rw [HandlerData, hbytes]
    exact hd
  refine ⟨hspell, fun hl => ?_, fun hk h7 => ?_⟩
  · obtain ⟨hbytes, hk⟩ := flatMap_taken hl
    exact hspell _ hbytes hk
  · rw [hspell is rfl hk, runs_of_not_mem]
    intro hmem
    obtain ⟨i, hi, e⟩ := List.mem_map.1 hmem
    exact h7 (set_effect e ▸ hi)

/-- A process whose words are all the same one, with a stack from 0 on. -/
def plainMemory (w : Word32) : Memory := ⟨fun _ => some w, fun _ => (0, 0), 0x1000, 0⟩

theorem plainMemory_data {w : Word32} {is : List Insn} (hw : w ≠ 0xdeadaee0)
    (h : wordBytes w = 0x80 :: is.flatMap Insn.bytes) : HandlerData (plainMemory w) 0x1000 is := by
  refine ⟨by decide, [w], fun i hi => ?_, .inl ⟨by simpa using h, rfl⟩⟩
  obtain rfl : i = 0 := by simpa using hi
  exact ⟨hw, rfl⟩

/-- The table pops wR10 and wR11 for `c6 a1`, and one wCGR register for `c7 01`: 16 and 4
    bytes.  The code pops r4 and r5 from 56 on, and moves the stack pointer by 72. -/
theorem runHandler_eq_wr :
    (∃ r, runHandler (plainMemory 0x80c6a1b0) (fun _ => 0) 0x1000 = .ok (true, r) ∧
      r.sp = 64 ∧ r 4 = 0x80c6a1b0) ∧
    ∃ r, runHandler (plainMemory 0x80c701b0) (fun _ => 0) 0x1000 = .ok (true, r) ∧ r.sp = 72 := by
  constructor
  · have hd : HandlerData (plainMemory 0x80c6a1b0) 0x1000 [.popWr 10 1, .finish] :=
      plainMemory_data (by decide) (by decide)
    have hrun := (runHandler_eq hd fun _ => 0).1 [.popWr10 6, .popR4 false 1, .finish] (by decide)
      (by intro j hj; simp only [List.mem_cons, List.not_mem_nil, or_false] at hj
          rcases hj with rfl | rfl | rfl <;> trivial)
    exact ⟨_, hrun, rfl, rfl⟩
  · have hd : HandlerData (plainMemory 0x80c701b0) 0x1000 [.popWcgr 1, .finish] :=
      plainMemory_data (by decide) (by decide)
    have hrun := (runHandler_eq hd fun _ => 0).2.1
      (by intro i hi; rcases List.mem_pair.1 hi with rfl | rfl <;> trivial)
    exact ⟨_, hrun, rfl⟩

end Unwind32

end Raphael
