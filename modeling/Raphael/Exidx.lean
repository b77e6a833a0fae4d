/-
  The 32-bit unwinder (unwind32/): words of memory, and the search in the index of
  exception handlers (`get_exception_handler` of backtrace-arm.c).

  The unwinder runs in the process it looks at (`memory->tid < 0`), and `d15_get_word` is a
  plain load: an address that is not mapped faults, and so does the run.  The word
  `0xdeadaee0` stands for one that cannot be read.

  * `Ends`: a run faults, or comes back with a value that has a property.
  * `getExceptionHandler_ends`: the search ends, if the number of entries is not negative.
  * `Table`: an index that can be read, with its entries in the order of their functions.
  * `getExceptionHandler_spec`: the handler that is found is that of the last entry not
    above the address.
-/
import Raphael.Lib.Bisect
import Mathlib.Data.BitVec
import Mathlib.Tactic.IntervalCases

namespace Raphael

namespace Unwind32

open Bisect

abbrev Word32 := BitVec 32

/-- Why a run does not come back. -/
inductive Stop
  /-- a load from an address that is not mapped -/
  | fault
  /-- the rounds of a loop are used up -/
  | rounds
  deriving DecidableEq

section Runs
variable {α β : Type}

theorem ok_bind (a : α) (f : α → Except Stop β) : (Except.ok a >>= f) = f a := rfl

/-- The run faults, or comes back with a value that has the property. -/
def Ends (P : α → Prop) : Except Stop α → Prop
  | .ok a => P a
  | .error s => s = .fault

theorem Ends.mono {P Q : α → Prop} {x : Except Stop α} (h : Ends P x) (hpq : ∀ a, P a → Q a) :
    Ends Q x := by
  cases x with
  | ok a => exact hpq a h
  | error s => exact h

theorem Ends.bind {P : α → Prop} {Q : β → Prop} {x : Except Stop α} {f : α → Except Stop β}
    (h : Ends P x) (hf : ∀ a, P a → Ends Q (f a)) : Ends Q (x >>= f) := by
  cases x with
  | ok a => exact hf a h
  | error s => exact h

theorem Ends.ite {P : α → Prop} {c : Prop} [Decidable c] {x y : Except Stop α} (hx : Ends P x)
    (hy : Ends P y) : Ends P (if c then x else y) := by
  split
  · exact hx
  · exact hy

end Runs

/-- The process as the unwinder sees it. -/
structure Memory where
  /-- the word at an address, if that is mapped -/
  word : Word32 → Option Word32
  /-- `__gnu_Unwind_Find_exidx`: the start and the number of the entries -/
  findExidx : Word32 → Word32 × BitVec 32
  /-- the bounds that `ubrd_get_stack` gives -/
  sstart : Word32
  send : Word32

namespace Memory
variable (m : Memory)

def d15GetWord (addr : Word32) : Except Stop Word32 :=
  match m.word addr with
  | none => .error .fault
  | some val => .ok val

def tryGetWord (ptr : Word32) : Except Stop (Option Word32) :=
  if ptr &&& 3 ≠ 0 then .ok none
  else do
    let out ← m.d15GetWord ptr
    if out ≠ 0xdeadaee0 then return some out else return none

/-- The bounds are checked, the word is loaded as it is. -/
def tryGetWordStack (ptr : Word32) : Except Stop (Option Word32) :=
  if m.send ≤ ptr ∧ ptr ≤ m.sstart then some <$> m.d15GetWord ptr else .ok none

end Memory

/-- A 31-bit place-relative offset as an absolute address. -/
def prelToAbsolute (place offset : Word32) : Word32 := place + (offset <<< 1).sshiftRight 1

/-- `EXIDX_CANTUNWIND` -/
def cantUnwind : Word32 := 1

section
variable (m : Memory) (start : Word32)

def entry (index : ℕ) : Word32 := start + BitVec.ofNat 32 (8 * index)

/-- The handler that the second word of an entry stands for. -/
def handlerAt (ptr entryHandler : Word32) : Word32 :=
  if entryHandler.msb then ptr
  else if entryHandler ≠ cantUnwind then prelToAbsolute ptr entryHandler
  else 0

/-- A word that the search needs; it stops with 0 at one that cannot be read. -/
def reading (ptr : Word32) (f : Word32 → Probe (Except Stop Word32)) : Probe (Except Stop Word32) :=
  match m.tryGetWord ptr with
  | .error s => .stop (.error s)
  | .ok none => .stop (.ok 0)
  | .ok (some w) => f w

/-- One round of the search. -/
def probe (pc : Word32) (size index : ℕ) : Probe (Except Stop Word32) :=
  reading m (entry start index) fun w =>
    if pc < prelToAbsolute (entry start index) w then .below
    else
      let found := reading m (entry start index + 4) fun h =>
        .stop (.ok (handlerAt (entry start index + 4) h))
      if index + 1 < size then
        reading m (entry start index + 8) fun w =>
          if prelToAbsolute (entry start index + 8) w ≤ pc then .above else found
      else found

/-- There are `2 ^ 64` pairs of bounds: a search of more rounds never ends. -/
def getExceptionHandler (pc : Word32) : Except Stop Word32 :=
  if pc = 0 then .ok 0
  else
    let (start, size) := m.findExidx pc
    if start ≠ 0 then
      match bisectWrap (probe m start pc size.toNat) 32 (2 ^ 64) 0 size.toNat with
      | none => .error .rounds
      | some r => r.getD (.ok 0)
    else .ok 0

end

/-! ## The search ends -/

section
variable {m : Memory}

theorem d15GetWord_ends (ptr : Word32) : Ends (fun _ => True) (m.d15GetWord ptr) := by
  unfold Memory.d15GetWord
  cases m.word ptr with
  | none => rfl
  | some val => trivial

theorem tryGetWord_ends (ptr : Word32) : Ends (fun _ => True) (m.tryGetWord ptr) := by
  unfold Memory.tryGetWord
  split
  case isTrue => trivial
  case isFalse =>
    refine (d15GetWord_ends ptr).bind fun out _ => ?_
    split <;> trivial

theorem tryGetWordStack_ends (ptr : Word32) : Ends (fun _ => True) (m.tryGetWordStack ptr) := by
  unfold Memory.tryGetWordStack
  split
  case isTrue =>
    rw [map_eq_pure_bind]
    exact (d15GetWord_ends ptr).bind fun _ _ => trivial
  case isFalse => trivial

/-- A round goes on, or it stops at an end of the run. -/
def Halts (p : Probe (Except Stop Word32)) : Prop := ∀ r, p = .stop r → Ends (fun _ => True) r

theorem reading_halts (ptr : Word32) {f : Word32 → Probe (Except Stop Word32)}
    (hf : ∀ w, Halts (f w)) : Halts (reading m ptr f) := by
  have h := tryGetWord_ends (m := m) ptr
  unfold reading
  generalize m.tryGetWord ptr = x at h ⊢
  rcases x with s | _ | w
  · rintro r ⟨⟩
    exact (h : s = .fault)
  · rintro r ⟨⟩
    trivial
  · exact hf w

theorem probe_halts (start pc : Word32) (size index : ℕ) : Halts (probe m start pc size index) := by
  have hfound := reading_halts (m := m) (entry start index + 4)
    (f := fun h => .stop (.ok (handlerAt (entry start index + 4) h)))
    fun w => by rintro r ⟨⟩; trivial
  refine reading_halts _ fun w => ?_
  split
  case isTrue => nofun
  case isFalse =>
    split
    case isTrue =>
      refine reading_halts _ fun w => ?_
      split
      case isTrue => nofun
      case isFalse => exact hfound
    case isFalse => exact hfound

/-- **The search ends**: with a number of entries that is not negative the sum of its bounds
    does not wrap around. -/
theorem getExceptionHandler_ends {pc : Word32} (hcount : 0 ≤ (m.findExidx pc).2.toInt) :
    Ends (fun _ => True) (getExceptionHandler m pc) := by
  unfold getExceptionHandler
  split
  case isTrue => trivial
  case isFalse =>
    generalize m.findExidx pc = x at hcount
    obtain ⟨start, size⟩ := x
    have hsize : 2 * size.toNat ≤ 2 ^ 32 := by
      have := BitVec.toInt_eq_toNat_cond size
      dsimp only at hcount
      split at this
      · omega
      · have := size.isLt
        omega
    dsimp only
    split
    case isTrue =>
      rw [bisectWrap_eq _ hsize (by omega)]
      dsimp only
      cases hb : bisect (probe m start pc size.toNat) 0 size.toNat with
      | none => trivial
      | some r =>
        obtain ⟨k, hk⟩ := exists_probe_of_bisect hb
        exact probe_halts start pc size.toNat k r hk
    case isFalse => trivial

end

/-! ## Indices in order -/

/-- `try_get_word` has a word at an aligned address. -/
def Memory.Readable (m : Memory) (a : Word32) : Prop := m.word a ≠ none ∧ m.word a ≠ some 0xdeadaee0

instance (m : Memory) (a : Word32) : Decidable (m.Readable a) :=
  inferInstanceAs (Decidable (_ ∧ _))

/-- The address of the function of an entry that can be read. -/
def entryPc (m : Memory) (start : Word32) (i : ℕ) : Word32 :=
  prelToAbsolute (entry start i) ((m.word (entry start i)).getD 0)

/-- The handler of an entry that can be read. -/
def entryHandler (m : Memory) (start : Word32) (i : ℕ) : Word32 :=
  handlerAt (entry start i + 4) ((m.word (entry start i + 4)).getD 0)

/-- The index at `start` has `n` entries that can be read, in the order of their functions. -/
structure Table (m : Memory) (start : Word32) (n : ℕ) : Prop where
  aligned : start.toNat % 4 = 0
  word : ∀ i < n, m.Readable (entry start i)
  handler : ∀ i < n, m.Readable (entry start i + 4)
  sorted : ∀ i j, i ≤ j → j < n → entryPc m start i ≤ entryPc m start j

variable {m : Memory} {start pc : Word32} {n i : ℕ}

theorem tryGetWord_of_word {ptr w : Word32} (h : ptr.toNat % 4 = 0) (hw : m.word ptr = some w)
    (hne : w ≠ 0xdeadaee0) : m.tryGetWord ptr = .ok (some w) := by
  have h3 : ptr &&& 3 = 0 := by
    apply BitVec.eq_of_toNat_eq
    rw [BitVec.toNat_and]
    exact (Nat.and_two_pow_sub_one_eq_mod _ 2).trans h
  rw [Memory.tryGetWord, if_neg (not_not.2 h3), Memory.d15GetWord, hw, ok_bind, if_pos hne]
  rfl

theorem reading_of_readable {ptr : Word32} (h : ptr.toNat % 4 = 0) (hr : m.Readable ptr)
    (f : Word32 → Probe (Except Stop Word32)) : reading m ptr f = f ((m.word ptr).getD 0) := by
  obtain ⟨w, hw⟩ := Option.ne_none_iff_exists'.1 hr.1
  have hne : w ≠ 0xdeadaee0 := fun e => hr.2 (e ▸ hw)
  rw [reading, tryGetWord_of_word h hw hne, hw, Option.getD_some]

theorem entry_succ (start : Word32) (i : ℕ) : entry start i + 8 = entry start (i + 1) := by
  rw [entry, entry, Nat.mul_add, BitVec.ofNat_add, BitVec.add_assoc]
  rfl

/-- A relative offset has 31 bits: it does not lead to one place from two that are half the
    memory apart. -/
theorem prelToAbsolute_ne (place a b : Word32) :
    prelToAbsolute place a ≠ prelToAbsolute (place + 0x80000000) b := by
  have hbound : ∀ x : Word32, -2 ^ 30 ≤ ((x <<< 1).sshiftRight 1).toInt ∧
      ((x <<< 1).sshiftRight 1).toInt < 2 ^ 30 := by
    intro x
    have h1 := BitVec.toInt_lt (x := x <<< 1)
    have h2 := BitVec.le_toInt (x := x <<< 1)
    rw [BitVec.toInt_sshiftRight, Int.shiftRight_eq_div_pow]
    omega
  intro h
  rw [prelToAbsolute, prelToAbsolute, BitVec.add_assoc] at h
  obtain ⟨ha, ha'⟩ := hbound a
  obtain ⟨hb, hb'⟩ := hbound b
  generalize (a <<< 1).sshiftRight 1 = x at *
  generalize (b <<< 1).sshiftRight 1 = y at *
  have hxy : x = 0x80000000 + y := by bv_omega
  rw [BitVec.toInt_eq_toNat_cond] at ha ha' hb hb'
  rw [hxy] at ha ha'
  bv_omega

namespace Table

theorem entry_mod (h : Table m start n) (i : ℕ) : (entry start i).toNat % 4 = 0 := by
  have := h.aligned
  rw [entry, BitVec.toNat_add, BitVec.toNat_ofNat]
  omega

/-- Entries in order do not go round the memory. -/
theorem length_le (h : Table m start n) : n ≤ 2 ^ 29 := by
  by_contra hlt
  have hround : entry start (2 ^ 29) = entry start 0 := by simp [entry]
  have hhalf : entry start (2 ^ 28) = entry start 0 + 0x80000000 := by simp [entry]
  have h1 := h.sorted 0 (2 ^ 28) (by omega) (by omega)
  have h2 := h.sorted (2 ^ 28) (2 ^ 29) (by omega) (by omega)
  have e : entryPc m start (2 ^ 29) = entryPc m start 0 := by rw [entryPc, hround, entryPc]
  rw [e] at h2
  have heq : entryPc m start 0 = entryPc m start (2 ^ 28) := BitVec.le_antisymm h1 h2
  rw [entryPc, entryPc, hhalf] at heq
  exact prelToAbsolute_ne _ _ _ heq

/-- What a round of the search says at an entry. -/
theorem probe_eq (h : Table m start n) (hi : i < n) (pc : Word32) :
    probe m start pc n i =
      if pc < entryPc m start i then .below
      else if i + 1 < n ∧ entryPc m start (i + 1) ≤ pc then .above
      else .stop (.ok (entryHandler m start i)) := by
  have hmod := h.entry_mod i
  have hmod4 : (entry start i + 4).toNat % 4 = 0 := by
    rw [BitVec.toNat_add, show (4 : Word32).toNat = 4 from rfl]
    omega
  unfold probe
  rw [reading_of_readable hmod (h.word i hi), reading_of_readable hmod4 (h.handler i hi)]
  dsimp only
  rw [← entryPc]
  by_cases hlt : pc < entryPc m start i
  · rw [if_pos hlt, if_pos hlt]
  · rw [if_neg hlt, if_neg hlt]
    by_cases hn : i + 1 < n
    · rw [if_pos hn, entry_succ, reading_of_readable (h.entry_mod _) (h.word _ hn), ← entryPc]
      by_cases hle : entryPc m start (i + 1) ≤ pc
      · rw [if_pos hle, if_pos (And.intro hn hle)]
      · rw [if_neg hle, if_neg (fun hh : _ ∧ _ => hle hh.2)]
        rfl
    · rw [if_neg hn, if_neg (fun hh : _ ∧ _ => hn hh.1)]
      rfl

variable (h : Table m start n) (hs : start ≠ 0)
  (hf : m.findExidx pc = (start, BitVec.ofNat 32 n)) (hpc : pc ≠ 0)
include h hs hf hpc

theorem getExceptionHandler_eq :
    getExceptionHandler m pc = (bisect (probe m start pc n) 0 n).getD (.ok 0) := by
  have hn := h.length_le
  have hsize : (BitVec.ofNat 32 n).toNat = n := by
    rw [BitVec.toNat_ofNat]
    omega
  unfold getExceptionHandler
  rw [if_neg hpc, hf]
  dsimp only
  rw [if_pos hs, hsize, bisectWrap_eq _ (by omega) (by omega)]

/-- The entry that holds `pc`. -/
theorem handler_at {i : ℕ} (hi : i < n) (hle : entryPc m start i ≤ pc)
    (hnext : i + 1 < n → pc < entryPc m start (i + 1)) :
    getExceptionHandler m pc = .ok (entryHandler m start i) := by
  have hsplit : Split (probe m start pc n) 0 n i (i + 1) := by
    constructor
    · intro k _ hk
      have h1 := h.sorted k i hk.le hi
      have h2 := h.sorted (k + 1) i hk hi
      rw [h.probe_eq (by omega), if_neg (by bv_omega), if_pos ⟨by omega, by bv_omega⟩]
    · intro k hk hk'
      have h1 := hnext (by omega)
      have h2 := h.sorted (i + 1) k hk hk'
      rw [h.probe_eq hk', if_pos (by bv_omega)]
  have hstop : probe m start pc n i = .stop (.ok (entryHandler m start i)) := by
    rw [h.probe_eq hi, if_neg (by bv_omega), if_neg]
    rintro ⟨h1, h2⟩
    have := hnext h1
    bv_omega
  rw [getExceptionHandler_eq h hs hf hpc, bisect_of_split hsplit (Nat.zero_le i) hi hstop]
  rfl

/-- A `pc` before the first entry. -/
theorem handler_before (hlt : ∀ i < n, pc < entryPc m start i) :
    getExceptionHandler m pc = .ok 0 := by
  rw [getExceptionHandler_eq h hs hf hpc, bisect_eq_none]
  · rfl
  · intro k _ hk b
    rw [h.probe_eq hk, if_pos (hlt k hk)]
    nofun

/-- **The search finds the last entry that is not above `pc`**, and no handler if there
    is none. -/
theorem getExceptionHandler_spec :
    (∀ i < n, entryPc m start i ≤ pc → (i + 1 < n → pc < entryPc m start (i + 1)) →
      getExceptionHandler m pc = .ok (entryHandler m start i)) ∧
    ((∀ i < n, pc < entryPc m start i) → getExceptionHandler m pc = .ok 0) :=
  ⟨fun _ hi hle hnext => handler_at h hs hf hpc hi hle hnext, handler_before h hs hf hpc⟩

end Table

/-- The index of three functions, the last one without a handler, and a stack. -/
def sampleMemory : Memory where
  word a :=
    if a = 0x20000000 then some 0x70001000 else if a = 0x20000004 then some 0x80a8b0b0
    else if a = 0x20000008 then some 0x70001ff8 else if a = 0x2000000c then some 0x80a8b0b0
    else if a = 0x20000010 then some 0x70002ff0 else if a = 0x20000014 then some 1
    else if a = 0x70000ffc then some 0x10002010 else if a = 0x70001004 then some 0x10003010
    else if 0x70000000 ≤ a ∧ a < 0x70002000 then some 0 else none
  findExidx _ := (0x20000000, 3)
  sstart := 0x70002000
  send := 0x70000000

theorem sampleMemory_table : Table sampleMemory 0x20000000 3 := by
  refine ⟨by decide, fun i hi => ?_, fun i hi => ?_, fun i j hij hj => ?_⟩
  · interval_cases i <;> decide
  · interval_cases i <;> decide
  · interval_cases j <;> interval_cases i <;> decide

theorem getExceptionHandler_sample : getExceptionHandler sampleMemory 0x10001010 = .ok 0x20000004 ∧
    getExceptionHandler sampleMemory 0x1000200c = .ok 0x2000000c ∧
    getExceptionHandler sampleMemory 0x1000300c = .ok 0 :=
  ⟨(sampleMemory_table.getExceptionHandler_spec (by decide) rfl (by decide)).1 0 (by decide)
      (by decide) (by decide),
    (sampleMemory_table.getExceptionHandler_spec (by decide) rfl (by decide)).1 1 (by decide)
      (by decide) (by decide),
    (sampleMemory_table.getExceptionHandler_spec (by decide) rfl (by decide)).1 2 (by decide)
      (by decide) (by decide)⟩

end Unwind32

end Raphael
