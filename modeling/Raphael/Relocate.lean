/-
  Moving the first instructions of a function into a trampoline on arm64
  (`__fix_instructions`).

  The instructions at `inp` are copied to `outp`, those with a PC-relative
  operand are rewritten for their new place, and the trampoline ends with a jump
  to what follows them.  A reference among the moved instructions goes to the
  new place; one that looks ahead is patched when its target is placed.

  * `fixInstruction` is one round of the loop, `fixInstructions` the function.
  * `Block` is what one round appends and `Context.place` appending it.
    `Emits` lists the blocks of the four fixers, and `fix_cases` says that a
    round does nothing else.
-/
import Raphael.Defs
import Raphael.Lib.A64
import Mathlib.Data.List.GetD

namespace Raphael

open A64

namespace Relocate

def nop : Ins := 0xd503201f#32

/-- `fix_info`; `bp` is the place in the trampoline. -/
structure FixInfo where
  bp : ℕ
  /-- left-shift counts -/
  ls : ℕ
  /-- & operand -/
  ad : BitVec 32

/-- The arguments of `__fix_instructions`, with the code that it reads. -/
structure Job where
  text : Text
  /-- `basep` -/
  inp : Word
  count : ℕ
  /-- `outp_base` -/
  outp : Word

/-- `context`, with the two pointers and the words of the trampoline. -/
structure Context where
  /-- `ins` of `insns_info` -/
  dat : ℕ → Word
  /-- the used part of `fmap` -/
  fmap : ℕ → List FixInfo
  inp : Word
  outp : ℕ
  mem : ℕ → Ins

/-- The two words of a pointer that `memcpy` writes. -/
def halves (a : Word) : List Ins := [a.extractLsb' 0 32, a.extractLsb' 32 32]

/-- The memory after the words `ws` are written at `p`. -/
def write (p : ℕ) (ws : List Ins) (mem : ℕ → Ins) (k : ℕ) : Ins :=
  if p ≤ k then ws.getD (k - p) (mem k) else mem k

namespace Context

/-- Write words and move `outp` behind them. -/
def emit (ws : List Ins) (c : Context) : Context where
  dat := c.dat
  fmap := c.fmap
  inp := c.inp
  outp := c.outp + ws.length
  mem := write c.outp ws c.mem

def insertFixMap (idx : ℕ) (f : FixInfo) (c : Context) : Context where
  dat := c.dat
  fmap := if (c.fmap idx).length < 10 then Function.update c.fmap idx (c.fmap idx ++ [f]) else c.fmap
  inp := c.inp
  outp := c.outp
  mem := c.mem

end Context

namespace Job

variable (S : Job)

/-- The address of a word of the trampoline. -/
def «at» (k : ℕ) : Word := word S.outp k

def endp : Word := word S.inp S.count

def isInFixingRange (a : Word) : Bool := S.inp.sle a && a.slt S.endp

def getRefInsIndex (a : Word) : ℕ := (a - S.inp).toNat / 4

/-- `resetCurrentIns(idx, outp)` -/
def resetCurrentIns (idx : ℕ) (c : Context) : Context :=
  { c with dat := Function.update c.dat idx (S.at c.outp) }

def patch (idx : ℕ) (mem : ℕ → Ins) (f : FixInfo) (dat : ℕ → Word) : ℕ → Ins :=
  Function.update mem f.bp
    (mem f.bp ||| (((dat idx - S.at f.bp).setWidth 32).sshiftRight 2 <<< f.ls &&& f.ad))

def processFixMap (idx : ℕ) (c : Context) : Context :=
  { c with
    mem := (c.fmap idx).foldl (fun m f => S.patch idx m f c.dat) c.mem
    fmap := Function.update c.fmap idx [] }

/-- The operand of the address `a` seen from `outp`, in bytes; zero and an entry
    of the fix map for an instruction `ref` that is not moved yet. -/
def operand (cur : ℕ) (special : Bool) (a ref : Word) (ls : ℕ) (ad : BitVec 32) (c : Context) :
    Context × Word :=
  if special then
    let refIdx := S.getRefInsIndex ref
    if refIdx ≤ cur then (c, c.dat refIdx - S.at c.outp)
    else (c.insertFixMap refIdx ⟨c.outp, ls, ad⟩, 0)
  else (c, a - S.at c.outp)

/-- `*outpp + 2` and the like are aligned to `mask + 1` bytes. -/
def aligned (k : ℕ) (mask : Word) : Bool := S.at k &&& mask == 0

/-- One `nop` that the current instruction starts after. -/
def pad (idx : ℕ) (c : Context) : Context := S.resetCurrentIns idx (c.emit [nop])

/-- `while (p) *outp++ = nop` -/
def padWhile (p : ℕ → Bool) : ℕ → Context → Context
  | 0, c => c
  | fuel + 1, c => if p c.outp then padWhile p fuel (c.emit [nop]) else c

/-- The instruction at `inp` is done. -/
def finish (idx : ℕ) (c : Context) : Context := S.processFixMap idx { c with inp := c.inp + 4 }

def fixBranchImm (c : Context) : Option Context :=
  let mask : Ins := 0xfc000000
  let rmask : Ins := 0x03ffffff
  let op_b : Ins := 0x14000000
  let op_bl : Ins := 0x94000000
  let ins := S.text c.inp
  let opc := ins &&& mask
  if opc = op_b ∨ opc = op_bl then
    let currentIdx := S.getRefInsIndex c.inp
    let c := S.resetCurrentIns currentIdx c
    let absoluteAddr := c.inp + ((ins <<< 6).sshiftRight 4).signExtend 64
    let newPcOffset := (absoluteAddr - S.at c.outp).sshiftRight 2
    let special := S.isInFixingRange absoluteAddr
    some (S.finish currentIdx (
      if !special && (rmask >>> 1).toNat ≤ newPcOffset.toInt.natAbs then
        let bAligned := S.aligned (c.outp + 2) 7
        if opc = op_b then
          let c := if bAligned then c else S.pad currentIdx c
          c.emit ([0x58000051, 0xd61f0220] ++ halves absoluteAddr)
        else
          let c := if bAligned then S.pad currentIdx c else c
          c.emit ([0x58000071, 0x1000009e, 0xd61f0220] ++ halves absoluteAddr)
      else
        let (c, d) := S.operand currentIdx special absoluteAddr absoluteAddr 0 rmask c
        c.emit [opc ||| ((d.sshiftRight 2).setWidth 32 &&& ~~~mask)]))
  else none

/-- `lmask` of `__fix_cond_comp_test_branch` -/
def branchMask (ins : Ins) : Option Ins :=
  if ins &&& 0xff000010 = 0x54000000 then some 0xff00001f
  else if ins &&& 0x7f000000 = 0x34000000 ∨ ins &&& 0x7f000000 = 0x35000000 then some 0xff00001f
  else if ins &&& 0x7f000000 = 0x36000000 ∨ ins &&& 0x7f000000 = 0x37000000 then some 0xfff8001f
  else none

def fixCondCompTestBranch (c : Context) : Option Context :=
  let ins := S.text c.inp
  match branchMask ins with
  | none => none
  | some lmask =>
    let currentIdx := S.getRefInsIndex c.inp
    let c := S.resetCurrentIns currentIdx c
    let absoluteAddr := c.inp + ((ins &&& ~~~lmask) >>> 3).setWidth 64
    let newPcOffset := (absoluteAddr - S.at c.outp).sshiftRight 2
    let special := S.isInFixingRange absoluteAddr
    some (S.finish currentIdx (
      if !special && (~~~lmask >>> 6).toNat ≤ newPcOffset.toInt.natAbs then
        let c := if S.aligned (c.outp + 4) 7 then c else S.pad currentIdx c
        c.emit ([((8 >>> 2 : Ins) <<< 5 &&& ~~~lmask) ||| (ins &&& lmask), 0x14000005, 0x58000051,
          0xd61f0220] ++ halves absoluteAddr)
      else
        let (c, d) := S.operand currentIdx special absoluteAddr absoluteAddr 5 (~~~lmask) c
        c.emit [((d.sshiftRight 2 <<< 5).setWidth 32 &&& ~~~lmask) ||| (ins &&& lmask)]))

/-- `mask` and `faligned` of `__fix_loadlit` -/
def loadlitMask (ins : Ins) : Option (Ins × Word) :=
  let faligned : Word := if ins &&& 0x40000000 ≠ 0 then 7 else 3
  if ins &&& 0xbf000000 = 0x18000000 then some (0xbf000000, faligned)
  else
    let faligned : Word :=
      if faligned ≠ 7 then if ins &&& 0x80000000 ≠ 0 then 15 else 3 else faligned
    if ins &&& 0x3f000000 = 0x1c000000 then some (0x3f000000, faligned)
    else if ins &&& 0xff000000 = 0x98000000 then some (0xff000000, 7)
    else none

/-- The part of `__fix_loadlit` behind the choice of `mask` and `faligned`. -/
def loadlit (idx : ℕ) (ins mask : Ins) (faligned absoluteAddr : Word) (c : Context) : Context :=
  let lmask : Ins := 0xff00001f
  let offset k := (absoluteAddr - S.at k).sshiftRight 2
  let special := S.isInFixingRange absoluteAddr
  if special || (~~~lmask >>> 6).toNat ≤
      (offset c.outp).toInt.natAbs + (faligned.toNat + 1 - 4) / 4 then
    let c := padWhile (fun k => !S.aligned (k + 2) faligned) 4 c
    let c := S.resetCurrentIns idx c
    let ns := (faligned.toNat + 1) / 4
    c.emit ([((8 >>> 2 : Ins) <<< 5 &&& ~~~mask) ||| (ins &&& lmask), 0x14000001 + BitVec.ofNat 32 ns]
      ++ (List.range ns).map fun i => S.text (word absoluteAddr i))
  else
    let faligned := faligned >>> 2
    let c := padWhile (fun k => offset k &&& faligned != 0) 4 c
    let c := S.resetCurrentIns idx c
    c.emit [((offset c.outp <<< 5).setWidth 32 &&& ~~~mask) ||| (ins &&& lmask)]

def fixLoadlit (c : Context) : Option Context :=
  let ins := S.text c.inp
  let currentIdx := S.getRefInsIndex c.inp
  if ins &&& 0xff000000 = 0xd8000000 then
    -- a prefetch is skipped
    let c := S.processFixMap currentIdx (S.resetCurrentIns currentIdx c)
    some { c with inp := c.inp + 4 }
  else
    match loadlitMask ins with
    | none => none
    | some (mask, faligned) =>
      let absoluteAddr := c.inp + (((ins <<< 8).sshiftRight 11) &&& ~~~3#32).setWidth 64
      some (S.finish currentIdx
        (S.loadlit currentIdx ins mask faligned absoluteAddr (S.resetCurrentIns currentIdx c)))

def fixPcreladdr (c : Context) : Option Context :=
  let mask : Ins := 0x9f000000
  let rmask : Ins := 0x0000001f
  let lmask : Ins := 0xff00001f
  let fmask : Ins := 0x00ffffff
  let maxVal : Ins := 0x001fffff
  let ins := S.text c.inp
  let lsbBytes := (ins <<< 1) >>> 30
  let imm := ((ins <<< 8).sshiftRight 11) &&& ~~~3#32
  let currentIdx := S.getRefInsIndex c.inp
  let load (a : Word) (c : Context) :=
    let c := if S.aligned (c.outp + 2) 7 then c else S.pad currentIdx c
    c.emit ([0x58000000 ||| ((8 >>> 2 : Ins) <<< 5 &&& ~~~mask) ||| (ins &&& rmask), 0x14000003] ++
      halves a)
  if ins &&& mask = 0x10000000 then
    let c := S.resetCurrentIns currentIdx c
    let absoluteAddr := c.inp + (imm.setWidth 64 ||| lsbBytes.setWidth 64)
    let newPcOffset := absoluteAddr - S.at c.outp
    let special := S.isInFixingRange absoluteAddr
    some (S.finish currentIdx (
      if !special && (maxVal >>> 1).toNat ≤ newPcOffset.toInt.natAbs then load absoluteAddr c
      else
        let (c, d) := S.operand currentIdx special absoluteAddr (absoluteAddr &&& ~~~3#64) 5 fmask c
        c.emit [((d <<< 3).setWidth 32 &&& fmask) ||| (ins &&& lmask)]))
  else if ins &&& mask = 0x90000000 then
    let c := S.resetCurrentIns currentIdx c
    let absoluteAddr := (c.inp &&& ~~~0xfff#64) + ((imm ||| lsbBytes) <<< 12).setWidth 64
    some (S.finish currentIdx (
      if S.isInFixingRange absoluteAddr then c.emit [ins] else load absoluteAddr c))
  else none

/-- One round of the loop. -/
def fixInstruction (c : Context) : Context :=
  match S.fixBranchImm c with
  | some c => c
  | none =>
    match S.fixCondCompTestBranch c with
    | some c => c
    | none =>
      match S.fixLoadlit c with
      | some c => c
      | none =>
        match S.fixPcreladdr c with
        | some c => c
        | none =>
          let idx := S.getRefInsIndex c.inp
          let c' := S.processFixMap idx (S.resetCurrentIns idx c)
          { c'.emit [S.text c.inp] with inp := c.inp + 4 }

def start : Context where
  dat _ := 0
  fmap _ := []
  inp := S.inp
  outp := 0
  mem _ := 0

/-- The jump behind the moved instructions. -/
def jumpBack (c : Context) : Context :=
  let mask : Ins := 0x03ffffff
  let callback := c.inp
  let pcOffset := (callback - S.at c.outp).sshiftRight 2
  if (mask >>> 1).toNat ≤ pcOffset.toInt.natAbs then
    let c := if S.aligned (c.outp + 2) 7 then c else c.emit [nop]
    c.emit ([0x58000051, 0xd61f0220] ++ halves callback)
  else c.emit [0x14000000 ||| (pcOffset.setWidth 32 &&& mask)]

def fixInstructions : Context := S.jumpBack (S.fixInstruction^[S.count] S.start)

end Job

/-! ## Blocks -/

theorem write_lt {p : ℕ} {ws : List Ins} {mem : ℕ → Ins} {k : ℕ} (h : k < p) :
    write p ws mem k = mem k := if_neg (by omega)

theorem write_ge {p : ℕ} {ws : List Ins} {mem : ℕ → Ins} {k : ℕ} (h : p + ws.length ≤ k) :
    write p ws mem k = mem k := by
  unfold write
  rw [List.getD_eq_default _ _ (by omega), ite_self]

theorem write_at {p : ℕ} {ws : List Ins} {mem : ℕ → Ins} {i : ℕ} (h : i < ws.length) :
    write p ws mem (p + i) = ws[i] := by
  unfold write
  rw [if_pos (by omega), Nat.add_sub_cancel_left, List.getD_eq_getElem _ _ h]

theorem write_nil (p : ℕ) (mem : ℕ → Ins) : write p [] mem = mem :=
  funext fun _ => ite_self _

theorem write_write (p : ℕ) (a b : List Ins) (mem : ℕ → Ins) :
    write (p + a.length) b (write p a mem) = write p (a ++ b) mem := by
  funext k
  by_cases h1 : k < p
  · rw [write_lt (by omega), write_lt h1, write_lt h1]
  obtain ⟨i, rfl⟩ := Nat.exists_eq_add_of_le (Nat.le_of_not_lt h1)
  by_cases h2 : i < a.length
  · rw [write_lt (by omega), write_at h2, write_at (by simp; omega), List.getElem_append_left h2]
  obtain ⟨j, rfl⟩ := Nat.exists_eq_add_of_le (Nat.le_of_not_lt h2)
  by_cases h3 : j < b.length
  · rw [← Nat.add_assoc, write_at h3, Nat.add_assoc, write_at (by simp; omega),
      List.getElem_append_right (by omega)]
    simp
  · rw [write_ge (by omega), write_ge (by omega), write_ge (by simp; omega)]

namespace Context
@[simp] theorem emit_outp (ws : List Ins) (c : Context) : (c.emit ws).outp = c.outp + ws.length := rfl
@[simp] theorem emit_dat (ws : List Ins) (c : Context) : (c.emit ws).dat = c.dat := rfl
@[simp] theorem emit_fmap (ws : List Ins) (c : Context) : (c.emit ws).fmap = c.fmap := rfl
@[simp] theorem emit_inp (ws : List Ins) (c : Context) : (c.emit ws).inp = c.inp := rfl
@[simp] theorem emit_mem (ws : List Ins) (c : Context) :
    (c.emit ws).mem = write c.outp ws c.mem := rfl

@[simp] theorem emit_nil (c : Context) : c.emit [] = c := by
  simp [emit, write_nil]

@[simp] theorem emit_emit (a b : List Ins) (c : Context) : (c.emit a).emit b = c.emit (a ++ b) := by
  simp [emit, write_write, Nat.add_assoc]
end Context

/-- What one round appends. -/
structure Block where
  nops : ℕ
  body : List Ins
  fix : Option (ℕ × FixInfo) := none

def Context.insert : Option (ℕ × FixInfo) → Context → Context
  | none, c => c
  | some (i, f), c => c.insertFixMap i f

namespace Job
variable (S : Job)

/-- Append a block for the instruction `cur`. -/
def place (cur : ℕ) (b : Block) (c : Context) : Context :=
  S.finish cur { (c.emit (List.replicate b.nops nop ++ b.body)).insert b.fix with
    dat := Function.update c.dat cur (S.at (c.outp + b.nops)) }

/-- The address that a fixer computes for the operand of `ins` at `pc`. -/
def absoluteAddr (ins : Ins) (pc : Word) : Group → Word
  | .b _ => pc + disp (imm26 ins)
  | .cond | .cb => pc + (imm19 ins).setWidth 64 <<< 2
  | .tb => pc + (imm14 ins).setWidth 64 <<< 2
  | .ldr _ => pc + ((imm19 ins).signExtend 32 <<< 2).setWidth 64
  | .adr => pc + ((imm21 ins).signExtend 32).setWidth 64
  | .adrp => (pc &&& ~~~0xfff#64) + ((imm21 ins).signExtend 32 <<< 12).setWidth 64
  | .prfm | .rest | .udf => pc

/-- How `operand` comes to the distance `d`. -/
inductive Aim (c : Context) (cur : ℕ) (a ref : Word) (ls : ℕ) (ad : Ins) :
    Word → Option (ℕ × FixInfo) → Prop
  | out (h : S.isInFixingRange a = false) : Aim c cur a ref ls ad (a - S.at c.outp) none
  | back (h : S.isInFixingRange a = true) (hr : S.getRefInsIndex ref ≤ cur) :
    Aim c cur a ref ls ad (c.dat (S.getRefInsIndex ref) - S.at c.outp) none
  | ahead (h : S.isInFixingRange a = true) (hr : cur < S.getRefInsIndex ref) :
    Aim c cur a ref ls ad 0 (some (S.getRefInsIndex ref, ⟨c.outp, ls, ad⟩))

theorem operand_aim (c : Context) (cur : ℕ) (a ref : Word) (ls : ℕ) (ad : Ins) :
    ∃ d fix, S.Aim c cur a ref ls ad d fix ∧
      S.operand cur (S.isInFixingRange a) a ref ls ad c = (c.insert fix, d) := by
  unfold operand
  by_cases h : S.isInFixingRange a = true
  · by_cases hr : S.getRefInsIndex ref ≤ cur
    · exact ⟨_, _, .back h hr, by simp [h, hr, Context.insert]⟩
    · exact ⟨_, _, .ahead h (by omega), by simp [h, hr, Context.insert]⟩
  · rw [Bool.not_eq_true] at h
    exact ⟨_, _, .out h, by simp [h, Context.insert]⟩

/-- The literal loads' own bits of `mask` -/
def litMask : Lit → BitVec 8
  | .w | .x => 0xbf
  | .sw => 0xff
  | .s | .d | .q => 0x3f

def litAlign : Lit → Word
  | .w | .s => 3
  | .x | .sw | .d => 7
  | .q => 15

/-- The words that load `a` into X17 and jump there. -/
def farJump (a : Word) : List Ins := [0x58000051, 0xd61f0220] ++ halves a

/-- The block for each kind of instruction; `c` is the context before it and `a`
    the address computed for the operand. -/
inductive Emits (c : Context) (cur : ℕ) (ins : Ins) (a : Word) : Group → Block → Prop
  | b {link d fix} (h : S.Aim (S.resetCurrentIns cur c) cur a a 0 0x03ffffff d fix)
      (hn : S.isInFixingRange a = false → (d.sshiftRight 2).toInt.natAbs < 0x1ffffff) :
      Emits c cur ins a (.b link) ⟨0, [(if link then 0x94000000 else 0x14000000) |||
        ((d.sshiftRight 2).setWidth 32 &&& 0x03ffffff)], fix⟩
  | bFar {n} (hn : n ≤ 1) (h : S.isInFixingRange a = false) :
      Emits c cur ins a (.b false) ⟨n, farJump a, none⟩
  | blFar {n} (hn : n ≤ 1) (h : S.isInFixingRange a = false) :
      Emits c cur ins a (.b true) ⟨n, [0x58000071, 0x1000009e, 0xd61f0220] ++ halves a, none⟩
  | branch {g lmask d fix} (hm : branchMask ins = some lmask)
      (h : S.Aim (S.resetCurrentIns cur c) cur a a 5 (~~~lmask) d fix)
      (hn : S.isInFixingRange a = false →
        (d.sshiftRight 2).toInt.natAbs < (~~~lmask >>> 6).toNat) :
      Emits c cur ins a g
        ⟨0, [((d.sshiftRight 2 <<< 5).setWidth 32 &&& ~~~lmask) ||| (ins &&& lmask)], fix⟩
  | branchFar {g lmask n} (hm : branchMask ins = some lmask) (hn : n ≤ 1)
      (h : S.isInFixingRange a = false) :
      Emits c cur ins a g
        ⟨n, [((2 : Ins) <<< 5 &&& ~~~lmask) ||| (ins &&& lmask), 0x14000005] ++ farJump a, none⟩
  | prfm : Emits c cur ins a .prfm ⟨0, [], none⟩
  | ldrFar {k n} (hn : n ≤ 3) :
      Emits c cur ins a (.ldr k)
        ⟨n, [((2 : Ins) <<< 5 &&& ~~~(litMask k ++ 0#24)) ||| (ins &&& 0xff00001f),
            0x14000001 + BitVec.ofNat 32 (((litAlign k).toNat + 1) / 4)] ++
          (List.range (((litAlign k).toNat + 1) / 4)).map fun i => S.text (word a i), none⟩
  | ldr {k n} (hn : n ≤ 3) (h : S.isInFixingRange a = false)
      (hd : ((a - S.at (c.outp + n)).sshiftRight 2).toInt.natAbs < 0x3ffff) :
      Emits c cur ins a (.ldr k)
        ⟨n, [(((a - S.at (c.outp + n)).sshiftRight 2 <<< 5).setWidth 32 &&&
            ~~~(litMask k ++ 0#24)) ||| (ins &&& 0xff00001f)], none⟩
  | adr {d fix} (h : S.Aim (S.resetCurrentIns cur c) cur a (a &&& ~~~3#64) 5 0x00ffffff d fix)
      (hn : S.isInFixingRange a = false → d.toInt.natAbs < 0xfffff) :
      Emits c cur ins a .adr
        ⟨0, [((d <<< 3).setWidth 32 &&& 0x00ffffff) ||| (ins &&& 0xff00001f)], fix⟩
  | adrFar {g n} (hg : g = .adr ∨ g = .adrp) (hn : n ≤ 1) (h : S.isInFixingRange a = false) :
      Emits c cur ins a g
        ⟨n, [0x58000040 ||| (ins &&& 0x0000001f), 0x14000003] ++ halves a, none⟩
  | adrp (h : S.isInFixingRange a = true) : Emits c cur ins a .adrp ⟨0, [ins], none⟩
  | copy : Emits c cur ins a .rest ⟨0, [ins], none⟩
  | udf {b} (hn : b.nops ≤ 3) (hb : b.body.length ≤ 6) (hf : b.fix = none) :
      Emits c cur ins a .udf b

theorem branchImm_test {ins : Ins} (link : Bool) :
    ins &&& 0xfc000000 = (if link then 0x94000000 else 0x14000000) ↔
      group (top ins) (ins.getLsbD 4) = .b link := by
  rw [group_b]
  cases link
  · exact and_top ins 0xfc 0x14
  · exact and_top ins 0xfc 0x94

theorem branchMask_eq (ins : Ins) : branchMask ins = match group (top ins) (ins.getLsbD 4) with
    | .cond | .cb => some 0xff00001f
    | .tb => some 0xfff8001f
    | _ => none := by
  have h0 : ins &&& 0xff000010 = 0x54000000 ↔ _ := and_top_bit ins
  have h4 : ins &&& 0x7f000000 = 0x34000000 ↔ _ := and_top ins 0x7f 0x34
  have h5 : ins &&& 0x7f000000 = 0x35000000 ↔ _ := and_top ins 0x7f 0x35
  have h6 : ins &&& 0x7f000000 = 0x36000000 ↔ _ := and_top ins 0x7f 0x36
  have h7 : ins &&& 0x7f000000 = 0x37000000 ↔ _ := and_top ins 0x7f 0x37
  unfold branchMask
  simp only [h0, h4, h5, h6, h7]
  generalize top ins = op
  generalize ins.getLsbD 4 = b
  revert op b
  decide

theorem loadlitMask_eq (ins : Ins) : loadlitMask ins = match group (top ins) (ins.getLsbD 4) with
    | .ldr k => some (litMask k ++ 0#24, litAlign k)
    | .udf => if top ins = 0xdc then some (0x3f000000, 7) else none
    | _ => none := by
  have h0 : ins &&& 0x40000000 = 0 ↔ _ := and_top ins 0x40 0
  have h1 : ins &&& 0x80000000 = 0 ↔ _ := and_top ins 0x80 0
  have h2 : ins &&& 0xbf000000 = 0x18000000 ↔ _ := and_top ins 0xbf 0x18
  have h3 : ins &&& 0x3f000000 = 0x1c000000 ↔ _ := and_top ins 0x3f 0x1c
  have h4 : ins &&& 0xff000000 = 0x98000000 ↔ _ := and_top ins 0xff 0x98
  unfold loadlitMask
  simp only [h0, h1, h2, h3, h4, ne_eq]
  generalize top ins = op
  generalize ins.getLsbD 4 = b
  revert op b
  decide

theorem bits26 (ins : Ins) : ((ins <<< 6).sshiftRight 4).signExtend 64 = disp (imm26 ins) := by
  unfold disp imm26
  ext i hi
  interval_cases i <;>
    simp [BitVec.getElem_signExtend, BitVec.getElem_sshiftRight, BitVec.msb_eq_getLsbD_last]

theorem and_mask_eq_zero {x : Word} (n : ℕ) (hn : n < 64) (h : x.toInt % 2 ^ n = 0) :
    x &&& BitVec.ofNat 64 (2 ^ n - 1) = 0 := by
  have hp : 2 ^ n < 2 ^ 64 := Nat.pow_lt_pow_right (by omega) hn
  have hd : (2 ^ 64 : ℤ) % 2 ^ n = 0 := Int.emod_eq_zero_of_dvd (pow_dvd_pow 2 (by omega))
  apply BitVec.eq_of_toNat_eq
  rw [BitVec.toNat_and, BitVec.toNat_ofNat, Nat.mod_eq_of_lt (by omega),
    Nat.and_two_pow_sub_one_eq_mod]
  have hx : ((x.toNat : ℤ)) % 2 ^ n = 0 := by
    rw [BitVec.toInt_eq_toNat_cond] at h
    split at h
    · exact h
    · rw [Int.sub_emod, Nat.cast_pow, Nat.cast_ofNat, hd] at h
      simpa using h
  show x.toNat % 2 ^ n = 0
  exact_mod_cast hx

theorem at_add (k j : ℕ) : S.at (k + j) = S.at k + BitVec.ofNat 64 (4 * j) := by
  rw [«at», word, Nat.mul_add, BitVec.ofNat_add, ← BitVec.add_assoc]
  rfl

theorem toInt_sub_at (a : Word) (k : ℕ) {j : ℕ} (hj : j ≤ 4) (h : -2 ^ 62 ≤ (a - S.at k).toInt) :
    (a - S.at (k + j)).toInt = (a - S.at k).toInt - 4 * j := by
  have e : a - S.at (k + j) = (a - S.at k) - BitVec.ofNat 64 (4 * j) := by
    rw [at_add]
    simp only [BitVec.sub_eq_add_neg, BitVec.neg_add, BitVec.add_assoc]
  rw [e]
  generalize a - S.at k = x at *
  have h4 : (BitVec.ofNat 64 (4 * j)).toNat = 4 * j := by simp; omega
  have h1 := x.isLt
  rw [BitVec.toInt_eq_toNat_cond] at h ⊢
  rw [BitVec.toNat_sub, h4, BitVec.toInt_eq_toNat_cond]
  split at h <;> split <;> omega

/-- The loop appends `nop`s, each in a state that meets `p`. -/
theorem padWhile_eq (p : ℕ → Bool) : ∀ (fuel : ℕ) (c : Context),
    ∃ n ≤ fuel, padWhile p fuel c = c.emit (List.replicate n nop) ∧ ∀ j < n, p (c.outp + j) = true
  | 0, c => ⟨0, le_rfl, by simp [padWhile], by simp⟩
  | fuel + 1, c => by
    unfold padWhile
    by_cases hp : p c.outp = true
    · obtain ⟨n, hn, e, h⟩ := padWhile_eq p fuel (c.emit [nop])
      refine ⟨n + 1, by omega, ?_, fun j hj => ?_⟩
      · rw [if_pos hp, e, Context.emit_emit]
        rfl
      · cases j with
        | zero => exact hp
        | succ j => simpa [Nat.add_assoc, Nat.add_comm 1] using h j (by omega)
    · exact ⟨0, by omega, by simp [hp], by simp⟩

/-- Three `nop`s align the data. -/
theorem padWhile_aligned (h4 : S.outp.toNat % 4 = 0) (m : Word) (hm : m = 3 ∨ m = 7 ∨ m = 15)
    (c : Context) :
    ∃ n ≤ 3, padWhile (fun k => !S.aligned (k + 2) m) 4 c = c.emit (List.replicate n nop) := by
  obtain ⟨n, -, e, h⟩ := padWhile_eq (fun k => !S.aligned (k + 2) m) 4 c
  refine ⟨n, ?_, e⟩
  by_contra hn
  -- one of four consecutive words is aligned to 16 bytes
  obtain ⟨j, hj, h16⟩ : ∃ j < 4, (S.at (c.outp + j + 2)).toNat % 16 = 0 := by
    have e : ∀ j, (S.at (c.outp + j + 2)).toNat % 16 = (S.outp.toNat + 4 * (c.outp + j + 2)) % 16 := by
      intro j
      simp only [«at», word, BitVec.toNat_add, BitVec.toNat_ofNat]
      omega
    refine ⟨(16 - (S.outp.toNat + 4 * (c.outp + 2)) % 16) % 16 / 4, by omega, ?_⟩
    rw [e]; omega
  have hp := h j (by omega)
  have ha : S.at (c.outp + j + 2) &&& m = 0 := by
    have h2 : ∀ n ≤ 4, (S.at (c.outp + j + 2)).toInt % 2 ^ n = 0 := by
      intro n hn
      have h16' : (S.at (c.outp + j + 2)).toInt % 2 ^ 4 = 0 := by
        rw [BitVec.toInt_eq_toNat_cond]
        split <;> omega
      exact Int.emod_eq_zero_of_dvd ((pow_dvd_pow 2 hn).trans (Int.dvd_of_emod_eq_zero h16'))
    rcases hm with rfl | rfl | rfl
    · exact and_mask_eq_zero 2 (by omega) (h2 2 (by omega))
    · exact and_mask_eq_zero 3 (by omega) (h2 3 (by omega))
    · exact and_mask_eq_zero 4 (by omega) (h2 4 (by omega))
  simp [aligned, ha] at hp

/-- The `nop`s that align the distance to the literal keep it small. -/
theorem padWhile_near (a : Word) (m : Word) (hm : m = 3 ∨ m = 7 ∨ m = 15) (c : Context)
    (hd : ((a - S.at c.outp).sshiftRight 2).toInt.natAbs + (m.toNat + 1 - 4) / 4 < 0x3ffff) :
    ∃ n ≤ 3, padWhile (fun k => (a - S.at k).sshiftRight 2 &&& m >>> 2 != 0) 4 c =
        c.emit (List.replicate n nop) ∧
      ((a - S.at (c.outp + n)).sshiftRight 2).toInt.natAbs < 0x3ffff := by
  obtain ⟨n, hn, e, h⟩ := padWhile_eq (fun k => (a - S.at k).sshiftRight 2 &&& m >>> 2 != 0) 4 c
  have hx : -2 ^ 62 ≤ (a - S.at c.outp).toInt := by
    rw [BitVec.toInt_sshiftRight, Int.shiftRight_eq_div_pow] at hd
    omega
  have hoff : ∀ j ≤ 4, ((a - S.at (c.outp + j)).sshiftRight 2).toInt =
      ((a - S.at c.outp).sshiftRight 2).toInt - j := by
    intro j hj
    rw [BitVec.toInt_sshiftRight, BitVec.toInt_sshiftRight, S.toInt_sub_at a _ hj hx,
      Int.shiftRight_eq_div_pow, Int.shiftRight_eq_div_pow]
    omega
  generalize ((a - S.at c.outp).sshiftRight 2).toInt = x at *
  -- among as many consecutive distances as the mask counts one passes
  have hn' : n ≤ (m.toNat + 1 - 4) / 4 := by
    by_contra hlt
    obtain ⟨i, hi, hz⟩ : ∃ i ≤ (m.toNat + 1 - 4) / 4,
        ((a - S.at (c.outp + i)).sshiftRight 2 &&& m >>> 2) = 0 := by
      rcases hm with rfl | rfl | rfl
      · exact ⟨0, by omega, BitVec.and_zero⟩
      · refine ⟨(x % 2).toNat, ?_, and_mask_eq_zero 1 (by omega) ?_⟩
        · show _ ≤ 1
          omega
        · rw [hoff _ (by omega)]
          omega
      · refine ⟨(x % 4).toNat, ?_, and_mask_eq_zero 2 (by omega) ?_⟩
        · show _ ≤ 3
          omega
        · rw [hoff _ (by omega)]
          omega
    have := h i (by omega)
    simp [hz] at this
  have hq : (m.toNat + 1 - 4) / 4 ≤ 3 := by
    rcases hm with rfl | rfl | rfl <;> decide
  refine ⟨n, by omega, e, ?_⟩
  rw [hoff n hn]
  omega

theorem place_zero (idx : ℕ) (ws : List Ins) (fix : Option (ℕ × FixInfo)) (c : Context) :
    S.finish idx (((S.resetCurrentIns idx c).insert fix).emit ws) = S.place idx ⟨0, ws, fix⟩ c := by
  unfold place
  congr 1
  cases fix <;> rfl

theorem place_nops (idx n : ℕ) (ws : List Ins) (c : Context) :
    S.finish idx ((S.resetCurrentIns idx
      ((S.resetCurrentIns idx c).emit (List.replicate n nop))).emit ws) =
    S.place idx ⟨n, ws, none⟩ c := by
  unfold place
  congr 1
  have hm := write_write c.outp (List.replicate n nop) ws c.mem
  rw [List.length_replicate] at hm
  simp only [resetCurrentIns, Context.insert, Context.emit, List.length_replicate,
    List.length_append, Function.update_idem, Nat.add_assoc, hm]

theorem place_pad (idx : ℕ) (p : Bool) (ws : List Ins) (c : Context) :
    ∃ n ≤ 1, S.finish idx ((if p then S.resetCurrentIns idx c
      else S.pad idx (S.resetCurrentIns idx c)).emit ws) = S.place idx ⟨n, ws, none⟩ c := by
  cases p
  · exact ⟨1, le_rfl, S.place_nops idx 1 ws c⟩
  · exact ⟨0, by omega, S.place_zero idx ws none c⟩

/-- `inp` of the reset context. -/
@[simp] theorem resetCurrentIns_inp (idx : ℕ) (c : Context) : (S.resetCurrentIns idx c).inp = c.inp :=
  rfl
@[simp] theorem resetCurrentIns_outp (idx : ℕ) (c : Context) :
    (S.resetCurrentIns idx c).outp = c.outp := rfl

theorem fixBranchImm_cases (c : Context) :
    (∃ link b, group (top (S.text c.inp)) ((S.text c.inp).getLsbD 4) = .b link ∧
      S.Emits c (S.getRefInsIndex c.inp) (S.text c.inp)
        (absoluteAddr (S.text c.inp) c.inp (.b link)) (.b link) b ∧
      S.fixBranchImm c = some (S.place (S.getRefInsIndex c.inp) b c)) ∨
    (∀ link, group (top (S.text c.inp)) ((S.text c.inp).getLsbD 4) ≠ .b link) ∧
      S.fixBranchImm c = none := by
  generalize hins : S.text c.inp = ins
  generalize hi : S.getRefInsIndex c.inp = idx
  unfold fixBranchImm
  simp only [hins, hi, resetCurrentIns_inp, resetCurrentIns_outp, bits26]
  by_cases hg : ∃ link, group (top ins) (ins.getLsbD 4) = .b link
  · left
    obtain ⟨link, hg⟩ := hg
    have ht := (branchImm_test link).2 hg
    refine ⟨link, ?_⟩
    rw [if_pos (by rw [ht]; cases link <;> decide)]
    show ∃ b, _ ∧ S.Emits c idx ins (c.inp + disp (imm26 ins)) _ b ∧ _
    generalize c.inp + disp (imm26 ins) = a
    by_cases hfar : S.isInFixingRange a = false ∧
        (0x03ffffff#32 >>> 1).toNat ≤ ((a - S.at c.outp).sshiftRight 2).toInt.natAbs
    · rw [if_pos (by simpa using hfar)]
      cases link with
      | false =>
        obtain ⟨n, hn, e⟩ := S.place_pad idx (S.aligned (c.outp + 2) 7) (farJump a) c
        refine ⟨_, hg, .bFar hn hfar.1, ?_⟩
        rw [← e, if_pos (by rw [ht]; rfl)]
        rfl
      | true =>
        obtain ⟨n, hn, e⟩ := S.place_pad idx (!S.aligned (c.outp + 2) 7)
          ([0x58000071, 0x1000009e, 0xd61f0220] ++ halves a) c
        refine ⟨_, hg, .blFar hn hfar.1, ?_⟩
        rw [← e, if_neg (by rw [ht]; decide)]
        cases S.aligned (c.outp + 2) 7 <;> rfl
    · rw [if_neg (by simpa using hfar)]
      obtain ⟨d, fix, ha, e⟩ := S.operand_aim (S.resetCurrentIns idx c) idx a a 0 0x03ffffff
      refine ⟨_, hg, .b ha fun h => ?_, ?_⟩
      · cases ha with
        | out _ => exact Nat.lt_of_not_le fun h' => hfar ⟨h, h'⟩
        | back h' | ahead h' => rw [h] at h'; cases h'
      · rw [e, ← S.place_zero idx, ht]
        rfl
  · right
    have hg' : ∀ link, group (top ins) (ins.getLsbD 4) ≠ .b link := fun link h => hg ⟨link, h⟩
    refine ⟨hg', if_neg ?_⟩
    rintro (h | h)
    · exact hg' false ((branchImm_test false).1 h)
    · exact hg' true ((branchImm_test true).1 h)

theorem bits19 (ins : Ins) :
    ((ins &&& ~~~0xff00001f) >>> 3).setWidth 64 = (imm19 ins).setWidth 64 <<< 2 := by
  unfold imm19
  ext i hi
  interval_cases i <;> simp

theorem bits14 (ins : Ins) :
    ((ins &&& ~~~0xfff8001f) >>> 3).setWidth 64 = (imm14 ins).setWidth 64 <<< 2 := by
  unfold imm14
  ext i hi
  interval_cases i <;> simp

theorem branchMask_addr {ins lmask : Ins} (pc : Word) (h : branchMask ins = some lmask) :
    pc + ((ins &&& ~~~lmask) >>> 3).setWidth 64 =
      absoluteAddr ins pc (group (top ins) (ins.getLsbD 4)) := by
  rw [branchMask_eq] at h
  split at h
  case h_1 hg | h_2 hg =>
    cases h
    rw [hg, bits19, absoluteAddr]
  case h_3 hg =>
    cases h
    rw [hg, bits14, absoluteAddr]
  case h_4 => cases h

theorem fixCondCompTestBranch_cases (c : Context) :
    (∃ b, S.Emits c (S.getRefInsIndex c.inp) (S.text c.inp)
        (absoluteAddr (S.text c.inp) c.inp (group (top (S.text c.inp)) ((S.text c.inp).getLsbD 4)))
        (group (top (S.text c.inp)) ((S.text c.inp).getLsbD 4)) b ∧
      S.fixCondCompTestBranch c = some (S.place (S.getRefInsIndex c.inp) b c)) ∨
    branchMask (S.text c.inp) = none ∧ S.fixCondCompTestBranch c = none := by
  generalize hins : S.text c.inp = ins
  generalize hi : S.getRefInsIndex c.inp = idx
  unfold fixCondCompTestBranch
  simp only [hins, hi, resetCurrentIns_inp, resetCurrentIns_outp]
  cases hm : branchMask ins with
  | none => exact Or.inr ⟨rfl, rfl⟩
  | some lmask =>
    left
    simp only [branchMask_addr _ hm]
    generalize absoluteAddr ins c.inp _ = a
    by_cases hfar : S.isInFixingRange a = false ∧
        (~~~lmask >>> 6).toNat ≤ ((a - S.at c.outp).sshiftRight 2).toInt.natAbs
    · rw [if_pos (by simpa using hfar)]
      obtain ⟨n, hn, e⟩ := S.place_pad idx (S.aligned (c.outp + 4) 7)
        ([((2 : Ins) <<< 5 &&& ~~~lmask) ||| (ins &&& lmask), 0x14000005] ++ farJump a) c
      refine ⟨_, .branchFar hm hn hfar.1, ?_⟩
      rw [← e]
      rfl
    · rw [if_neg (by simpa using hfar)]
      obtain ⟨d, fix, ha, e⟩ := S.operand_aim (S.resetCurrentIns idx c) idx a a 5 (~~~lmask)
      refine ⟨_, .branch hm ha fun h => ?_, ?_⟩
      · cases ha with
        | out _ => exact Nat.lt_of_not_le fun h' => hfar ⟨h, h'⟩
        | back h' | ahead h' => rw [h] at h'; cases h'
      · rw [e, ← S.place_zero idx]

theorem bitsLit (ins : Ins) :
    (((ins <<< 8).sshiftRight 11) &&& ~~~3#32) = (imm19 ins).signExtend 32 <<< 2 := by
  unfold imm19
  ext i hi
  interval_cases i <;>
    simp [BitVec.getElem_signExtend, BitVec.getElem_sshiftRight, BitVec.msb_eq_getLsbD_last]

theorem bitsAdr (ins : Ins) :
    (((ins <<< 8).sshiftRight 11) &&& ~~~3#32) ||| (ins <<< 1) >>> 30 =
      (imm21 ins).signExtend 32 := by
  unfold imm21
  ext i hi
  interval_cases i <;>
    simp [BitVec.getElem_signExtend, BitVec.getElem_sshiftRight, BitVec.msb_eq_getLsbD_last] <;>
    rw [BitVec.getElem_append] <;> simp

theorem prfm_test (ins : Ins) :
    ins &&& 0xff000000 = 0xd8000000 ↔ group (top ins) (ins.getLsbD 4) = .prfm := by
  have h : ins &&& 0xff000000 = 0xd8000000 ↔ _ := and_top ins 0xff 0xd8
  rw [h]
  generalize top ins = op
  generalize ins.getLsbD 4 = b
  revert op b
  decide

theorem adr_test (ins : Ins) :
    (ins &&& 0x9f000000 = 0x10000000 ↔ group (top ins) (ins.getLsbD 4) = .adr) ∧
      (ins &&& 0x9f000000 = 0x90000000 ↔ group (top ins) (ins.getLsbD 4) = .adrp) := by
  have h1 : ins &&& 0x9f000000 = 0x10000000 ↔ _ := and_top ins 0x9f 0x10
  have h2 : ins &&& 0x9f000000 = 0x90000000 ↔ _ := and_top ins 0x9f 0x90
  rw [h1, h2]
  generalize top ins = op
  generalize ins.getLsbD 4 = b
  revert op b
  decide

theorem litAlign_cases (k : Lit) : litAlign k = 3 ∨ litAlign k = 7 ∨ litAlign k = 15 := by
  cases k <;> decide

/-- Both forms of a literal load are a block. -/
theorem loadlit_place (h4 : S.outp.toNat % 4 = 0) (idx : ℕ) (ins mask : Ins) {m : Word} (a : Word)
    (c : Context) (hm : m = 3 ∨ m = 7 ∨ m = 15) :
    (∃ n ≤ 3, S.finish idx (S.loadlit idx ins mask m a (S.resetCurrentIns idx c)) =
      S.place idx ⟨n, [((2 : Ins) <<< 5 &&& ~~~mask) ||| (ins &&& 0xff00001f),
          0x14000001 + BitVec.ofNat 32 ((m.toNat + 1) / 4)] ++
        (List.range ((m.toNat + 1) / 4)).map fun i => S.text (word a i), none⟩ c) ∨
    ∃ n ≤ 3, S.isInFixingRange a = false ∧
      ((a - S.at (c.outp + n)).sshiftRight 2).toInt.natAbs < 0x3ffff ∧
      S.finish idx (S.loadlit idx ins mask m a (S.resetCurrentIns idx c)) =
        S.place idx ⟨n, [(((a - S.at (c.outp + n)).sshiftRight 2 <<< 5).setWidth 32 &&& ~~~mask) |||
          (ins &&& 0xff00001f)], none⟩ c := by
  unfold loadlit
  by_cases hfar : S.isInFixingRange a = true ∨ (~~~0xff00001f#32 >>> 6).toNat ≤
      ((a - S.at c.outp).sshiftRight 2).toInt.natAbs + (m.toNat + 1 - 4) / 4
  · left
    obtain ⟨n, hn, e⟩ := S.padWhile_aligned h4 m hm (S.resetCurrentIns idx c)
    refine ⟨n, hn, ?_⟩
    rw [← S.place_nops idx n]
    simp only [resetCurrentIns_outp, e]
    rw [if_pos (by simpa using hfar)]
    rfl
  · right
    rw [not_or, Nat.not_le, Bool.not_eq_true] at hfar
    obtain ⟨n, hn, e, hd⟩ := S.padWhile_near a m hm (S.resetCurrentIns idx c) hfar.2
    refine ⟨n, hn, hfar.1, hd, ?_⟩
    rw [← S.place_nops idx n]
    simp only [resetCurrentIns_outp, e]
    rw [if_neg (by simpa using hfar), Context.emit_outp, List.length_replicate, resetCurrentIns_outp]

theorem fixLoadlit_cases (h4 : S.outp.toNat % 4 = 0) (c : Context) :
    (∃ b, S.Emits c (S.getRefInsIndex c.inp) (S.text c.inp)
        (absoluteAddr (S.text c.inp) c.inp (group (top (S.text c.inp)) ((S.text c.inp).getLsbD 4)))
        (group (top (S.text c.inp)) ((S.text c.inp).getLsbD 4)) b ∧
      S.fixLoadlit c = some (S.place (S.getRefInsIndex c.inp) b c)) ∨
    group (top (S.text c.inp)) ((S.text c.inp).getLsbD 4) ≠ .prfm ∧
      loadlitMask (S.text c.inp) = none ∧ S.fixLoadlit c = none := by
  generalize hins : S.text c.inp = ins
  generalize hi : S.getRefInsIndex c.inp = idx
  unfold fixLoadlit
  simp only [hins, hi, bitsLit, prfm_test]
  by_cases hp : group (top ins) (ins.getLsbD 4) = .prfm
  · left
    rw [if_pos hp, hp]
    refine ⟨_, .prfm, ?_⟩
    rw [← S.place_zero idx, Context.emit_nil]
    rfl
  rw [if_neg hp, loadlitMask_eq]
  cases hg : group (top ins) (ins.getLsbD 4)
  case ldr k =>
    left
    simp only []
    obtain ⟨n, hn, e⟩ | ⟨n, hn, h, hd, e⟩ := S.loadlit_place h4 idx ins (litMask k ++ 0#24)
      (c.inp + ((imm19 ins).signExtend 32 <<< 2).setWidth 64) c (litAlign_cases k)
    · exact ⟨_, .ldrFar hn, congrArg some e⟩
    · exact ⟨_, .ldr hn h hd, congrArg some e⟩
  case udf =>
    by_cases ht : top ins = 0xdc
    · left
      simp only [ht, if_true]
      obtain ⟨n, hn, e⟩ | ⟨n, hn, h, hd, e⟩ := S.loadlit_place h4 idx ins 0x3f000000
        (c.inp + ((imm19 ins).signExtend 32 <<< 2).setWidth 64) c (m := 7) (.inr (.inl rfl))
      · exact ⟨_, .udf hn (by simp) rfl, congrArg some e⟩
      · exact ⟨_, .udf hn (by simp) rfl, congrArg some e⟩
    · right
      simp only [ht, if_false]
      exact ⟨by simp, trivial, trivial⟩
  case prfm => exact absurd hg hp
  all_goals right; simp

theorem fixPcreladdr_cases (c : Context) :
    (∃ b, S.Emits c (S.getRefInsIndex c.inp) (S.text c.inp)
        (absoluteAddr (S.text c.inp) c.inp (group (top (S.text c.inp)) ((S.text c.inp).getLsbD 4)))
        (group (top (S.text c.inp)) ((S.text c.inp).getLsbD 4)) b ∧
      S.fixPcreladdr c = some (S.place (S.getRefInsIndex c.inp) b c)) ∨
    group (top (S.text c.inp)) ((S.text c.inp).getLsbD 4) ≠ .adr ∧
      group (top (S.text c.inp)) ((S.text c.inp).getLsbD 4) ≠ .adrp ∧ S.fixPcreladdr c = none := by
  generalize hins : S.text c.inp = ins
  generalize hi : S.getRefInsIndex c.inp = idx
  have hload : ∀ a, ∃ n ≤ 1, S.finish idx ((if S.aligned (c.outp + 2) 7 then S.resetCurrentIns idx c
      else S.pad idx (S.resetCurrentIns idx c)).emit
        ([0x58000040 ||| (ins &&& 0x0000001f), 0x14000003] ++ halves a)) =
      S.place idx ⟨n, [0x58000040 ||| (ins &&& 0x0000001f), 0x14000003] ++ halves a, none⟩ c :=
    fun a => S.place_pad idx (S.aligned (c.outp + 2) 7) _ c
  unfold fixPcreladdr
  simp only [hins, hi, (adr_test ins).1, (adr_test ins).2, ← BitVec.setWidth_or, bitsAdr,
    resetCurrentIns_inp, resetCurrentIns_outp]
  by_cases ha : group (top ins) (ins.getLsbD 4) = .adr
  · left
    rw [if_pos ha, ha]
    show ∃ b, S.Emits c idx ins (c.inp + ((imm21 ins).signExtend 32).setWidth 64) _ b ∧ _
    generalize c.inp + ((imm21 ins).signExtend 32).setWidth 64 = a
    by_cases hfar : S.isInFixingRange a = false ∧
        (0x001fffff#32 >>> 1).toNat ≤ (a - S.at c.outp).toInt.natAbs
    · rw [if_pos (by simpa using hfar)]
      obtain ⟨n, hn, e⟩ := hload a
      exact ⟨_, .adrFar (.inl rfl) hn hfar.1, congrArg some e⟩
    · rw [if_neg (by simpa using hfar)]
      obtain ⟨d, fix, h, e⟩ :=
        S.operand_aim (S.resetCurrentIns idx c) idx a (a &&& ~~~3#64) 5 0x00ffffff
      refine ⟨_, .adr h fun hs => ?_, ?_⟩
      · cases h with
        | out _ => exact Nat.lt_of_not_le fun h' => hfar ⟨hs, h'⟩
        | back h' | ahead h' => rw [hs] at h'; cases h'
      · rw [e, ← S.place_zero idx]
  rw [if_neg ha]
  by_cases hp : group (top ins) (ins.getLsbD 4) = .adrp
  · left
    rw [if_pos hp, hp]
    show ∃ b, S.Emits c idx ins
      ((c.inp &&& ~~~0xfff#64) + ((imm21 ins).signExtend 32 <<< 12).setWidth 64) _ b ∧ _
    generalize (c.inp &&& ~~~0xfff#64) + ((imm21 ins).signExtend 32 <<< 12).setWidth 64 = a
    cases hs : S.isInFixingRange a with
    | true => exact ⟨_, .adrp hs, congrArg some (S.place_zero idx [ins] none c)⟩
    | false =>
      obtain ⟨n, hn, e⟩ := hload a
      exact ⟨_, .adrFar (.inr rfl) hn hs, congrArg some e⟩
  · right
    exact ⟨ha, hp, if_neg hp⟩

theorem write_patch {p : ℕ} (ws : List Ins) (idx : ℕ) (dat : ℕ → Word) {L : List FixInfo}
    (h : ∀ f ∈ L, f.bp < p) (mem : ℕ → Ins) :
    write p ws (L.foldl (fun m f => S.patch idx m f dat) mem) =
      L.foldl (fun m f => S.patch idx m f dat) (write p ws mem) := by
  induction L generalizing mem with
  | nil => rfl
  | cons f L ih =>
    rw [List.foldl_cons, List.foldl_cons, ih fun g hg => h g (List.mem_cons_of_mem f hg)]
    congr 1
    have hf := h f List.mem_cons_self
    funext k
    by_cases hk : k < p
    · rw [write_lt hk, patch, patch, Function.update_apply, Function.update_apply, write_lt hf,
        write_lt hk]
    · rw [patch, patch, Function.update_of_ne (by omega)]
      unfold write
      rw [if_pos (by omega), if_pos (by omega), Function.update_of_ne (by omega)]

/-- **What one round can do**: it appends the block of its instruction. -/
theorem fix_cases (h4 : S.outp.toNat % 4 = 0) (c : Context)
    (hf : ∀ f ∈ c.fmap (S.getRefInsIndex c.inp), f.bp < c.outp) :
    ∃ b, S.Emits c (S.getRefInsIndex c.inp) (S.text c.inp)
        (absoluteAddr (S.text c.inp) c.inp (group (top (S.text c.inp)) ((S.text c.inp).getLsbD 4)))
        (group (top (S.text c.inp)) ((S.text c.inp).getLsbD 4)) b ∧
      S.fixInstruction c = S.place (S.getRefInsIndex c.inp) b c := by
  unfold fixInstruction
  obtain ⟨link, b, hg, hb, e⟩ | ⟨h1, e⟩ := S.fixBranchImm_cases c
  · exact ⟨b, by rw [hg]; exact hb, by rw [e]⟩
  rw [e]
  obtain ⟨b, hb, e⟩ | ⟨h2, e⟩ := S.fixCondCompTestBranch_cases c
  · exact ⟨b, hb, by rw [e]⟩
  rw [e]
  obtain ⟨b, hb, e⟩ | ⟨h3, h3', e⟩ := S.fixLoadlit_cases h4 c
  · exact ⟨b, hb, by rw [e]⟩
  rw [e]
  obtain ⟨b, hb, e⟩ | ⟨h4, h5, e⟩ := S.fixPcreladdr_cases c
  · exact ⟨b, hb, by rw [e]⟩
  rw [e]
  refine ⟨⟨0, [S.text c.inp], none⟩, ?_, ?_⟩
  · rw [branchMask_eq] at h2
    rw [loadlitMask_eq] at h3'
    cases hg : group (top (S.text c.inp)) ((S.text c.inp).getLsbD 4) <;> rw [hg] at h1 h2 h3 h3' h4 h5
    case rest => exact .copy
    case udf => exact .udf (by simp) (by simp) rfl
    case b link => exact absurd rfl (h1 link)
    case prfm => exact absurd rfl h3
    case adr => exact absurd rfl h4
    case adrp => exact absurd rfl h5
    all_goals cases h2 <;> cases h3'
  · -- the patches lie before the copied word
    rw [← S.place_zero]
    have hw := S.write_patch [S.text c.inp] (S.getRefInsIndex c.inp)
      (S.resetCurrentIns (S.getRefInsIndex c.inp) c).dat hf c.mem
    simp only [finish, processFixMap, Context.insert, Context.emit, resetCurrentIns] at hw ⊢
    rw [hw]

end Job

end Relocate

end Raphael
