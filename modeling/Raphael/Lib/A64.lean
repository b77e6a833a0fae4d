/-
  The instructions of AArch64 that read the program counter, and runs of
  machine code.

  * `decode` separates these instructions from all others.  Their operand is a
    displacement in bytes; `near_disp` is the round trip of the immediate field
    that holds it.
  * `step text` performs one instruction of the code `text`, a memory of 32-bit
    words that programs do not write.  The instructions that `decode` does not
    separate are a parameter: they see the registers and say where to go on.
  * `Reach` is a run of any length.
-/
import Mathlib.Data.BitVec
import Mathlib.Logic.Function.Basic
import Mathlib.Logic.Relation
import Mathlib.Tactic.IntervalCases

namespace A64

abbrev Addr := BitVec 64
abbrev Ins := BitVec 32
/-- Machine code by its address. -/
abbrev Text := Addr → Ins

/-! ## Decoding -/

/-- What a conditional branch tests. -/
inductive Test
  | cond (c : BitVec 4)
  /-- `cbz` and `cbnz` -/
  | zero (wide neg : Bool) (rt : BitVec 5)
  /-- `tbz` and `tbnz` -/
  | bit (b : BitVec 6) (set : Bool) (rt : BitVec 5)
  deriving DecidableEq

/-- What a literal load loads. -/
inductive Lit
  | w | x | sw | s | d | q
  deriving DecidableEq

/-- The number of words that are loaded. -/
def Lit.words : Lit → ℕ
  | .w | .sw | .s => 1
  | .x | .d => 2
  | .q => 4

inductive Op
  | b (link : Bool) (disp : Addr)
  | branch (t : Test) (disp : Addr)
  | ldr (k : Lit) (rt : BitVec 5) (disp : Addr)
  | prfm
  | adr (rd : BitVec 5) (disp : Addr)
  /-- the displacement is that of the pages -/
  | adrp (rd : BitVec 5) (disp : Addr)
  | br (rn : BitVec 5)
  | nop
  | other (w : Ins)
  | udf
  deriving DecidableEq

/-- The encoding groups, by the first eight bits and bit 4. -/
inductive Group
  | b (link : Bool)
  | cond
  | cb
  | tb
  | ldr (k : Lit)
  | prfm
  | adr
  | adrp
  | rest
  | udf
  deriving DecidableEq

def group (op : BitVec 8) (bit4 : Bool) : Group :=
  if op &&& 0xfc = 0x14 then .b false
  else if op &&& 0xfc = 0x94 then .b true
  else if op = 0x54 then if bit4 then .udf else .cond
  else if op &&& 0x7e = 0x34 then .cb
  else if op &&& 0x7e = 0x36 then .tb
  else if op = 0x18 then .ldr .w
  else if op = 0x58 then .ldr .x
  else if op = 0x98 then .ldr .sw
  else if op = 0xd8 then .prfm
  else if op = 0x1c then .ldr .s
  else if op = 0x5c then .ldr .d
  else if op = 0x9c then .ldr .q
  else if op = 0xdc then .udf
  else if op &&& 0x9f = 0x10 then .adr
  else if op &&& 0x9f = 0x90 then .adrp
  else .rest

/-- The displacement that an immediate field of words stands for. -/
def disp {n : ℕ} (imm : BitVec n) : Addr := imm.signExtend 64 <<< 2

def top (w : Ins) : BitVec 8 := w.extractLsb' 24 8
def imm26 (w : Ins) : BitVec 26 := w.extractLsb' 0 26
def imm19 (w : Ins) : BitVec 19 := w.extractLsb' 5 19
def imm14 (w : Ins) : BitVec 14 := w.extractLsb' 5 14
def rt (w : Ins) : BitVec 5 := w.extractLsb' 0 5
/-- `immhi:immlo` -/
def imm21 (w : Ins) : BitVec 21 := w.extractLsb' 5 19 ++ w.extractLsb' 29 2

def decode (w : Ins) : Op :=
  match group (top w) (w.getLsbD 4) with
  | .b link => .b link (disp (imm26 w))
  | .cond => .branch (.cond (w.extractLsb' 0 4)) (disp (imm19 w))
  | .cb => .branch (.zero (w.getLsbD 31) (w.getLsbD 24) (rt w)) (disp (imm19 w))
  | .tb =>
    .branch (.bit (w.extractLsb' 31 1 ++ w.extractLsb' 19 5) (w.getLsbD 24) (rt w)) (disp (imm14 w))
  | .ldr k => .ldr k (rt w) (disp (imm19 w))
  | .prfm => .prfm
  | .adr => .adr (rt w) ((imm21 w).signExtend 64)
  | .adrp => .adrp (rt w) ((imm21 w).signExtend 64 <<< 12)
  | .udf => .udf
  | .rest =>
    if w &&& 0xfffffc1f#32 = 0xd61f0000#32 then .br (w.extractLsb' 5 5)
    else if w = 0xd503201f#32 then .nop
    else .other w

/-! ## Fields

What the masks of the encodings select, and the fields of words put together
from two others by masks. -/

theorem group_b {op : BitVec 8} {link b : Bool} :
    group op b = .b link ↔ op &&& 0xfc = if link then 0x94 else 0x14 := by
  revert op link b; decide

theorem and_top (w : Ins) (m c : BitVec 8) :
    w &&& (m ++ 0#24) = c ++ 0#24 ↔ top w &&& m = c := by
  unfold top
  constructor
  · intro h
    ext i hi
    have e := congrArg (fun x : Ins => x.getLsbD (24 + i)) h
    simp only [BitVec.getLsbD_and, BitVec.getLsbD_append, show ¬ 24 + i < 24 by omega, if_false,
      Nat.add_sub_cancel_left] at e
    simpa [hi] using e
  · rintro rfl
    ext i hi
    rw [BitVec.getElem_and, BitVec.getElem_append, BitVec.getElem_append]
    by_cases h : i < 24
    · simp [h]
    · simp [h, show 24 + (i - 24) = i by omega, hi]

theorem and_top_bit (w : Ins) :
    w &&& 0xff000010 = 0x54000000 ↔ top w = 0x54 ∧ w.getLsbD 4 = false := by
  unfold top
  constructor
  · intro h
    constructor
    · ext i hi
      have e := congrArg (fun x : Ins => x.getLsbD (24 + i)) h
      simp only [BitVec.getLsbD_and] at e
      interval_cases i <;> simpa using e
    · have e := congrArg (fun x : Ins => x.getLsbD 4) h
      simpa using e
  · rintro ⟨h, h4⟩
    ext i hi
    by_cases h' : i < 24
    · interval_cases i <;> simp
      rw [← BitVec.getLsbD_eq_getElem, h4]
    · have e : w.getLsbD (24 + (i - 24)) = (0x54#8).getLsbD (i - 24) := by
        have e := congrArg (fun x : BitVec 8 => x.getLsbD (i - 24)) h
        simpa [show i - 24 < 8 by omega] using e
      rw [show 24 + (i - 24) = i by omega] at e
      rw [BitVec.getElem_and, ← BitVec.getLsbD_eq_getElem, e]
      interval_cases i <;> simp

theorem field26 (link : Bool) (x : Ins) :
    let w' : Ins := (if link then 0x94000000 else 0x14000000) ||| (x &&& 0x03ffffff)
    top w' &&& 0xfc = (if link then 0x94 else 0x14) ∧ imm26 w' = x.extractLsb' 0 26 := by
  unfold top imm26
  constructor <;> ext i hi <;> cases link <;>
    simp only [BitVec.getElem_and, BitVec.getElem_extractLsb', BitVec.getLsbD_or,
      BitVec.getLsbD_and] <;>
    interval_cases i <;> simp

theorem field19 (x w : Ins) :
    let w' : Ins := (x <<< 5 &&& ~~~0xff00001f) ||| (w &&& 0xff00001f)
    top w' = top w ∧ rt w' = rt w ∧ imm19 w' = x.extractLsb' 0 19 := by
  unfold top imm19 rt
  refine ⟨?_, ?_, ?_⟩ <;> ext i hi <;>
    simp only [BitVec.getElem_extractLsb', BitVec.getLsbD_or, BitVec.getLsbD_and,
      BitVec.getLsbD_not] <;>
    interval_cases i <;> simp

theorem field14 (x w : Ins) :
    let w' : Ins := (x <<< 5 &&& ~~~0xfff8001f) ||| (w &&& 0xfff8001f)
    top w' = top w ∧ rt w' = rt w ∧ w'.extractLsb' 19 5 = w.extractLsb' 19 5 ∧
      imm14 w' = x.extractLsb' 0 14 := by
  unfold top imm14 rt
  refine ⟨?_, ?_, ?_, ?_⟩ <;> ext i hi <;>
    simp only [BitVec.getElem_extractLsb', BitVec.getLsbD_or, BitVec.getLsbD_and,
      BitVec.getLsbD_not] <;>
    interval_cases i <;> simp

/-- Bits of `x` above the field reach the first eight bits where the mask `m`
    lets them through. -/
theorem fieldLit (m : BitVec 8) (x w : Ins) :
    let w' : Ins := (x <<< 5 &&& ~~~(m ++ 0#24)) ||| (w &&& 0xff00001f)
    top w' = top w ||| (x.extractLsb' 19 8 &&& ~~~m) ∧ rt w' = rt w ∧
      imm19 w' = x.extractLsb' 0 19 := by
  unfold top imm19 rt
  refine ⟨?_, ?_, ?_⟩ <;> ext i hi <;>
    simp only [BitVec.getElem_extractLsb', BitVec.getLsbD_or, BitVec.getLsbD_and,
      BitVec.getLsbD_not, BitVec.getLsbD_append, BitVec.getElem_or, BitVec.getElem_and,
      BitVec.getElem_not] <;>
    interval_cases i <;> simp [Bool.or_comm]

theorem fieldAdr (x w : Ins) :
    let w' : Ins := (x <<< 3 &&& 0x00ffffff) ||| (w &&& 0xff00001f)
    top w' = top w ∧ rt w' = rt w ||| (x.extractLsb' 0 2).setWidth 5 <<< 3 ∧
      imm21 w' = x.extractLsb' 2 19 ++ w.extractLsb' 29 2 := by
  unfold top imm21 rt
  refine ⟨?_, ?_, ?_⟩
  · ext i hi
    simp only [BitVec.getElem_extractLsb', BitVec.getLsbD_or, BitVec.getLsbD_and]
    interval_cases i <;> simp
  · ext i hi
    simp only [BitVec.getElem_extractLsb', BitVec.getLsbD_or, BitVec.getLsbD_and]
    interval_cases i <;> simp [Bool.or_comm]
  · congr 1 <;> ext i hi <;>
      simp only [BitVec.getElem_extractLsb', BitVec.getLsbD_or, BitVec.getLsbD_and] <;>
      interval_cases i <;> simp

theorem fieldRt (w : Ins) :
    let w' : Ins := 0x58000040 ||| (w &&& 0x0000001f)
    top w' = 0x58 ∧ rt w' = rt w ∧ imm19 w' = 2 := by
  unfold top imm19 rt
  refine ⟨?_, ?_, ?_⟩ <;> ext i hi <;>
    simp only [BitVec.getElem_extractLsb', BitVec.getLsbD_or, BitVec.getLsbD_and] <;>
    interval_cases i <;> simp

/-! ## Decoding by group -/

section
variable {w w' : Ins}

theorem decode_b {link : Bool} (h : group (top w) (w.getLsbD 4) = .b link) :
    decode w = .b link (disp (imm26 w)) := by simp only [decode, h]

theorem decode_cond (h : group (top w) (w.getLsbD 4) = .cond) :
    decode w = .branch (.cond (w.extractLsb' 0 4)) (disp (imm19 w)) := by simp only [decode, h]

theorem decode_cb (h : group (top w) (w.getLsbD 4) = .cb) :
    decode w = .branch (.zero (w.getLsbD 31) (w.getLsbD 24) (rt w)) (disp (imm19 w)) := by
  simp only [decode, h]

theorem decode_tb (h : group (top w) (w.getLsbD 4) = .tb) :
    decode w = .branch (.bit (w.extractLsb' 31 1 ++ w.extractLsb' 19 5) (w.getLsbD 24) (rt w))
      (disp (imm14 w)) := by simp only [decode, h]

theorem decode_ldr {k : Lit} (h : group (top w) (w.getLsbD 4) = .ldr k) :
    decode w = .ldr k (rt w) (disp (imm19 w)) := by simp only [decode, h]

theorem decode_prfm (h : group (top w) (w.getLsbD 4) = .prfm) : decode w = .prfm := by
  simp only [decode, h]

theorem decode_adr (h : group (top w) (w.getLsbD 4) = .adr) :
    decode w = .adr (rt w) ((imm21 w).signExtend 64) := by simp only [decode, h]

theorem decode_adrp (h : group (top w) (w.getLsbD 4) = .adrp) :
    decode w = .adrp (rt w) ((imm21 w).signExtend 64 <<< 12) := by simp only [decode, h]

theorem decode_udf (h : group (top w) (w.getLsbD 4) = .udf) : decode w = .udf := by
  simp only [decode, h]

theorem low_of_rt (h : rt w = rt w') :
    w.getLsbD 4 = w'.getLsbD 4 ∧ w.extractLsb' 0 4 = w'.extractLsb' 0 4 := by
  have e : ∀ i < 5, w.getLsbD i = w'.getLsbD i := by
    intro i hi
    simpa [rt, hi] using congrArg (fun x : BitVec 5 => x.getLsbD i) h
  refine ⟨e 4 (by omega), ?_⟩
  ext i hi
  simpa using e i (by omega)

theorem high_of_top (h : top w = top w') :
    w.getLsbD 31 = w'.getLsbD 31 ∧ w.getLsbD 24 = w'.getLsbD 24 ∧
      w.extractLsb' 31 1 = w'.extractLsb' 31 1 := by
  have e : ∀ i < 8, w.getLsbD (24 + i) = w'.getLsbD (24 + i) := by
    intro i hi
    simpa [top, hi] using congrArg (fun x : BitVec 8 => x.getLsbD i) h
  refine ⟨e 7 (by omega), e 0 (by omega), ?_⟩
  ext i hi
  have := e (7 + i) (by omega)
  simpa [show 24 + (7 + i) = 31 + i by omega] using this

/-- The group of a word is that of any with the same first eight bits and register. -/
theorem group_congr (ht : top w = top w') (hr : rt w = rt w') :
    group (top w) (w.getLsbD 4) = group (top w') (w'.getLsbD 4) := by
  rw [ht, (low_of_rt hr).1]

end

/-! ## Displacements -/

theorem shift_back {d : Addr} (h : d.toNat % 4 = 0) : d.sshiftRight 2 <<< 2 = d := by
  ext i hi
  rw [BitVec.getElem_shiftLeft]
  by_cases h2 : i < 2
  · have e : (d.toNat % 2 ^ 2).testBit i = false := by rw [show d.toNat % 2 ^ 2 = 0 from h]; simp
    rw [Nat.testBit_mod_two_pow] at e
    simp only [h2, decide_true, Bool.true_and] at e
    simp only [h2, decide_true, Bool.not_true, Bool.false_and]
    exact e.symm
  · simp [h2, BitVec.getElem_sshiftRight, show 2 + (i - 2) = i by omega, hi]

theorem signExtend_trunc {n : ℕ} (hn : 0 < n) (hn' : n ≤ 64) {d : Addr}
    (h1 : -2 ^ (n - 1) ≤ d.toInt) (h2 : d.toInt < 2 ^ (n - 1)) :
    (d.extractLsb' 0 n).signExtend 64 = d := by
  apply BitVec.eq_of_toInt_eq
  rw [BitVec.toInt_signExtend_of_le hn', BitVec.toInt_extractLsb']
  have e : ((2 ^ n : ℕ) : ℤ) = 2 * 2 ^ (n - 1) := by
    rw [← pow_succ', Nat.sub_add_cancel hn]; norm_cast
  have hd : ((d.toNat >>> 0 : ℕ) : ℤ) = d.toInt ∨ ((d.toNat >>> 0 : ℕ) : ℤ) = d.toInt + 2 ^ 64 := by
    rw [BitVec.toInt_eq_toNat_cond]; simp only [Nat.shiftRight_zero]; split <;> omega
  have hp : (2 : ℤ) ^ 64 = 2 ^ (64 - n) * (2 ^ n : ℕ) := by
    push_cast; rw [← pow_add, Nat.sub_add_cancel hn']; norm_num
  have hb : d.toInt.bmod (2 ^ n) = d.toInt := Int.bmod_eq_of_le (by omega) (by omega)
  rcases hd with hd | hd
  · rw [hd, hb]
  · rw [hd, hp, Int.add_mul_bmod_self_right, hb]

/-- **The round trip of a displacement** through a field that it fits into. -/
theorem near_disp {n : ℕ} (hn : 0 < n) (hn' : n ≤ 64) {d : Addr} (h : d.toNat % 4 = 0)
    (h1 : -2 ^ (n - 1) ≤ (d.sshiftRight 2).toInt) (h2 : (d.sshiftRight 2).toInt < 2 ^ (n - 1)) :
    disp ((d.sshiftRight 2).extractLsb' 0 n) = d := by
  rw [disp, signExtend_trunc hn hn' h1 h2, shift_back h]

theorem sub_mod {a b : Addr} (ha : a.toNat % 4 = 0) (hb : b.toNat % 4 = 0) :
    (a - b).toNat % 4 = 0 := by
  rw [BitVec.toNat_sub]
  omega

theorem add_mod {a b : Addr} (ha : a.toNat % 4 = 0) (hb : b.toNat % 4 = 0) :
    (a + b).toNat % 4 = 0 := by
  rw [BitVec.toNat_add]
  omega

theorem disp_mod {n : ℕ} (imm : BitVec n) : (disp imm).toNat % 4 = 0 := by
  rw [disp, BitVec.toNat_shiftLeft, Nat.shiftLeft_eq]
  omega

theorem toInt_add {x : Addr} {n : ℕ} (h : x.toInt + n < 2 ^ 63) :
    (x + BitVec.ofNat 64 n).toInt = x.toInt + n := by
  have hx := x.isLt
  rw [BitVec.toInt_eq_toNat_cond] at h ⊢
  rw [BitVec.toInt_eq_toNat_cond, BitVec.toNat_add, BitVec.toNat_ofNat]
  split at h <;> split <;> omega

theorem msb_signExtend_shift {n k : ℕ} (hn : 0 < n) (hk : n + k ≤ 64) (imm : BitVec n) :
    (imm.signExtend 64 <<< k).msb = imm.msb := by
  simp only [BitVec.msb_eq_getLsbD_last, BitVec.getLsbD_shiftLeft, BitVec.getLsbD_signExtend]
  by_cases h : 64 - 1 - k < n
  · simp [show 63 - k = n - 1 by omega, show ¬ 63 < k by omega]
    intro _
    omega
  · simp [show ¬ 63 - k < n by omega, show ¬ 63 < k by omega]
    omega

theorem msb_disp {n : ℕ} (hn : 0 < n) (hn' : n ≤ 62) (imm : BitVec n) : (disp imm).msb = imm.msb :=
  msb_signExtend_shift hn (by omega) imm

theorem setWidth_shift (x : Addr) : (x <<< 5).setWidth 32 = x.setWidth 32 <<< 5 := by
  ext i hi
  simp

theorem trunc_setWidth {n : ℕ} (hn : n ≤ 32) (x : Addr) :
    (x.setWidth 32).extractLsb' 0 n = x.extractLsb' 0 n := by
  ext i hi
  simp [show i < 32 by omega]

/-- The 32-bit arithmetic of the patches is enough for every field. -/
theorem trunc_patch {n : ℕ} (hn : n ≤ 30) (x : Addr) :
    ((x.setWidth 32).sshiftRight 2).extractLsb' 0 n = (x.sshiftRight 2).extractLsb' 0 n := by
  ext i hi
  rw [BitVec.getElem_extractLsb', BitVec.getElem_extractLsb', BitVec.getLsbD_sshiftRight,
    BitVec.getLsbD_sshiftRight, BitVec.getLsbD_setWidth]
  simp only [Nat.zero_add, show ¬ 32 ≤ i by omega, show ¬ 64 ≤ i by omega,
    show 2 + i < 32 by omega, show 2 + i < 64 by omega, if_true, decide_true, decide_false,
    Bool.not_false, Bool.true_and]

theorem near_of {n : ℕ} (hn : 0 < n) (hn' : n ≤ 64) {d : Addr} (h4 : d.toNat % 4 = 0)
    (h : (d.sshiftRight 2).toInt.natAbs < 2 ^ (n - 1)) :
    disp ((d.sshiftRight 2).extractLsb' 0 n) = d := by
  have e : ((2 ^ (n - 1) : ℕ) : ℤ) = 2 ^ (n - 1) := by norm_cast
  exact near_disp hn hn' h4 (by omega) (by omega)

theorem add_sub_self (a b : Addr) : a + (b - a) = b := by
  rw [BitVec.add_comm, BitVec.sub_add_cancel]

theorem disp_unsigned {n : ℕ} (hn : 0 < n) (hn' : n ≤ 62) {imm : BitVec n}
    (h : (disp imm).msb = false) : imm.setWidth 64 <<< 2 = disp imm := by
  rw [msb_disp hn hn'] at h
  rw [disp, BitVec.signExtend_eq_setWidth_of_msb_false h]

/-- A displacement back that is taken as unsigned is off by what its field can hold. -/
theorem disp_wrapped {n : ℕ} (hn : 0 < n) (hn' : n ≤ 61) {imm : BitVec n}
    (h : (disp imm).msb = true) :
    imm.setWidth 64 <<< 2 = disp imm + BitVec.ofNat 64 (2 ^ (n + 2)) := by
  rw [msb_disp hn (by omega)] at h
  have hlt := imm.isLt
  have hle : 2 ^ n ≤ 2 ^ 61 := Nat.pow_le_pow_right (by omega) hn'
  have hpow : 2 ^ (n + 2) = 4 * 2 ^ n := by rw [Nat.pow_succ, Nat.pow_succ]; omega
  apply BitVec.eq_of_toNat_eq
  simp only [disp, BitVec.toNat_add, BitVec.toNat_shiftLeft, BitVec.toNat_setWidth,
    BitVec.toNat_signExtend, BitVec.toNat_ofNat, Nat.shiftLeft_eq, h, if_true, hpow]
  generalize 2 ^ n = p at *
  omega

theorem imm21_low (w : Ins) : ((imm21 w).signExtend 64).extractLsb' 0 2 = w.extractLsb' 29 2 := by
  unfold imm21
  ext i hi
  rw [BitVec.getElem_extractLsb', BitVec.getLsbD_signExtend]
  simp only [Nat.zero_add, show i < 64 by omega, show i < 19 + 2 by omega, decide_true, if_true,
    Bool.true_and]
  rw [BitVec.getLsbD_append]
  simp [hi]

/-! ## Runs -/

variable {ε : Type*}

/-- The registers; `env` is all that only the instructions outside `decode` use. -/
structure Regs (ε : Type*) where
  x : BitVec 5 → BitVec 64
  v : BitVec 5 → BitVec 128
  /-- the flags NZCV -/
  nzcv : BitVec 4
  env : ε

namespace Regs

/-- Register 31 is zero. -/
def get (r : Regs ε) (n : BitVec 5) : BitVec 64 := if n = 31 then 0 else r.x n

def set (r : Regs ε) (n : BitVec 5) (a : BitVec 64) : Regs ε :=
  if n = 31 then r else { r with x := Function.update r.x n a }

variable (r : Regs ε) (n : BitVec 5) (a : BitVec 64)

@[simp] theorem set_v : (r.set n a).v = r.v := by
  unfold set; split <;> rfl

@[simp] theorem set_nzcv : (r.set n a).nzcv = r.nzcv := by
  unfold set; split <;> rfl

@[simp] theorem set_env : (r.set n a).env = r.env := by
  unfold set; split <;> rfl

variable {r n a}

theorem set_x_ne {m : BitVec 5} (h : m ≠ n) : (r.set n a).x m = r.x m := by
  unfold set
  split
  · rfl
  · exact Function.update_of_ne h _ _

theorem set_x_self (h : n ≠ 31) : (r.set n a).x n = a := by
  unfold set
  rw [if_neg h]
  exact Function.update_self _ _ _

theorem get_set (h : n ≠ 31) : (r.set n a).get n = a := by
  rw [get, if_neg h, set_x_self h]

end Regs

/-- `ConditionHolds` -/
def holds (c f : BitVec 4) : Bool :=
  let n := f.getLsbD 3
  let z := f.getLsbD 2
  let cf := f.getLsbD 1
  let v := f.getLsbD 0
  let r :=
    match (c.extractLsb' 1 3).toNat with
    | 0 => z
    | 1 => cf
    | 2 => n
    | 3 => v
    | 4 => cf && !z
    | 5 => n == v
    | 6 => n == v && !z
    | _ => true
  if c.getLsbD 0 && c ≠ 15 then !r else r

def Test.eval (r : Regs ε) : Test → Bool
  | .cond c => holds c r.nzcv
  | .zero wide neg rt => (if wide then r.get rt == 0 else (r.get rt).setWidth 32 == 0) != neg
  | .bit b set rt => (r.get rt).getLsbD b.toNat == set

/-- Load the words `m` into register `rt`. -/
def Lit.load (m : ℕ → BitVec 32) (rt : BitVec 5) (r : Regs ε) : Lit → Regs ε
  | .w => r.set rt ((m 0).setWidth 64)
  | .x => r.set rt (m 1 ++ m 0)
  | .sw => r.set rt ((m 0).signExtend 64)
  | .s => { r with v := Function.update r.v rt ((m 0).setWidth 128) }
  | .d => { r with v := Function.update r.v rt ((m 1 ++ m 0).setWidth 128) }
  | .q => { r with v := Function.update r.v rt (m 3 ++ m 2 ++ m 1 ++ m 0) }

theorem Lit.load_congr {m m' : ℕ → BitVec 32} {k : Lit} (h : ∀ i < k.words, m i = m' i)
    (rt : BitVec 5) (r : Regs ε) : k.load m rt r = k.load m' rt r := by
  cases k <;> simp only [Lit.words] at h <;> simp only [Lit.load]
  case w | sw | s => rw [h 0 (by omega)]
  case x | d => rw [h 0 (by omega), h 1 (by omega)]
  case q => rw [h 0 (by omega), h 1 (by omega), h 2 (by omega), h 3 (by omega)]

theorem halves_append (a : BitVec 64) : a.extractLsb' 32 32 ++ a.extractLsb' 0 32 = a := by
  ext i hi
  simp only [BitVec.getElem_append, BitVec.getElem_extractLsb']
  split
  · rw [Nat.zero_add]
    exact BitVec.getLsbD_eq_getElem hi
  · rw [show 32 + (i - 32) = i by omega]
    exact BitVec.getLsbD_eq_getElem hi

/-- Where an instruction goes on. -/
inductive Flow
  | next
  | jump (a : Addr)
  | call (a : Addr)

structure State (ε : Type*) where
  pc : Addr
  regs : Regs ε

/-- The instructions outside `decode`. -/
abbrev Isa (ε : Type*) := Ins → Regs ε → Option (Regs ε × Flow)

/-- The `i`-th word after `a`. -/
def word (a : Addr) (i : ℕ) : Addr := a + BitVec.ofNat 64 (4 * i)

theorem word_toInt (a : Addr) {i j : ℕ} (hi : i < 2 ^ 32) (hj : j < 2 ^ 32) :
    (word a i - word a j).toInt = 4 * (i : ℤ) - 4 * j := by
  unfold word
  have h := a.isLt
  simp only [BitVec.toInt_eq_toNat_cond, BitVec.toNat_sub, BitVec.toNat_add, BitVec.toNat_ofNat]
  split <;> omega

def step (isa : Isa ε) (text : Text) (s : State ε) : Option (State ε) :=
  match decode (text s.pc) with
  | .b link d => some ⟨s.pc + d, if link then s.regs.set 30 (s.pc + 4) else s.regs⟩
  | .branch t d => some ⟨if t.eval s.regs then s.pc + d else s.pc + 4, s.regs⟩
  | .ldr k rt d => some ⟨s.pc + 4, k.load (fun i => text (word (s.pc + d) i)) rt s.regs⟩
  | .prfm | .nop => some ⟨s.pc + 4, s.regs⟩
  | .adr rd d => some ⟨s.pc + 4, s.regs.set rd (s.pc + d)⟩
  | .adrp rd d => some ⟨s.pc + 4, s.regs.set rd ((s.pc &&& ~~~0xfff#64) + d)⟩
  | .br rn => some ⟨s.regs.get rn, s.regs⟩
  | .udf => none
  | .other w =>
    match isa w s.regs with
    | some (r, .next) => some ⟨s.pc + 4, r⟩
    | some (r, .jump a) => some ⟨a, r⟩
    | some (r, .call a) => some ⟨a, r.set 30 (s.pc + 4)⟩
    | none => none

/-- A run. -/
def Reach (isa : Isa ε) (text : Text) : State ε → State ε → Prop :=
  Relation.ReflTransGen fun s s' => step isa text s = some s'

end A64
