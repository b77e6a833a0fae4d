/-
  `A64HookFunction`: a jump over the first instructions of a function, which are kept
  in a trampoline.

  * `A64HookFunctionV`, `FastAllocateTrampoline` and `A64HookFunction` as the code has
    them; whether `mprotect` succeeds is an input.
  * `hooks_simulate`: after any hooks of functions apart from one another, each symbol
    leads to its replacement and each trampoline does what the function did.
  * `rehook_loops`: the trampoline for a symbol that was hooked before leads to the
    replacement again.
-/
import Raphael.Simulate
import Mathlib.Tactic.IntervalCases

namespace Raphael

open A64 Relocate

namespace Hook64

/-- The words `ws` are stored from `a` on. -/
def store (a : Word) (ws : List Ins) (T : Text) : Text := fun b =>
  if (b - a).toNat % 4 = 0 then ws.getD ((b - a).toNat / 4) (T b) else T b

section
variable (symbol replace : Word)

def pcOffset : Word := (replace - symbol).sshiftRight 2

/-- `llabs(pc_offset) >= (mask >> 1)` -/
def isFar : Prop := 0x1ffffff ≤ (pcOffset symbol replace).toInt.natAbs

instance : Decidable (isFar symbol replace) := inferInstanceAs (Decidable (_ ≤ _))

/-- The number of instructions that are saved. -/
def count : ℕ := if isFar symbol replace then if (symbol + 8) &&& 7 ≠ 0 then 5 else 4 else 1

/-- The words that overwrite them. -/
def jump : List Ins :=
  if isFar symbol replace then
    (if count symbol replace = 5 then [nop] else []) ++ [0x58000051, 0xd61f0220] ++ halves replace
  else [0x14000000 ||| ((pcOffset symbol replace).setWidth 32 &&& 0x03ffffff)]

/-- `__fix_instructions(original, count, trampoline)` -/
def job (T : Text) (rwx : Word) : Job := ⟨T, symbol, count symbol replace, rwx⟩

/-- The memory and the result; `rwxOk` says whether `__make_rwx` succeeds. -/
def A64HookFunctionV (T : Text) (rwx : Option Word) (rwx_size : ℕ) (rwxOk : Bool) :
    Text × Option Word :=
  if rwx.isSome ∧ rwx_size < count symbol replace * 10 then (T, none)
  else
    let T := match rwx with
      | some t => (job symbol replace T t).image T
      | none => T
    if rwxOk then (store symbol (jump symbol replace) T, rwx) else (T, none)

end

/-- The memory, and `__index` of `FastAllocateTrampoline`. -/
structure Process where
  text : Text
  index : BitVec 32

/-- `A64_MAX_BACKUPS` -/
def maxBackups : ℕ := 256

/-- The rows of `__insns_pool`, of `A64_MAX_INSTRUCTIONS * 10` words. -/
def row (pool : Word) (i : ℕ) : Word := word pool (50 * i)

def FastAllocateTrampoline (pool : Word) (m : Process) : Process × Option Word :=
  let i := m.index + 1
  ({ m with index := i }, if 0 ≤ i.toInt ∧ i.toInt < maxBackups then some (row pool i.toNat) else none)

/-- `result` says whether the caller asks for the trampoline; the second part is what
    `*result` becomes. -/
def A64HookFunction (pool : Word) (m : Process) (symbol replace : Word) (result rwxOk : Bool) :
    Process × Option Word :=
  if result then
    match FastAllocateTrampoline pool m with
    | (m, none) => (m, none)
    | (m, some t) =>
      let (T, trampoline) := A64HookFunctionV symbol replace m.text (some t) 50 rwxOk
      ({ m with text := T }, trampoline)
  else ({ m with text := (A64HookFunctionV symbol replace m.text none 50 rwxOk).1 }, none)

/-! ## Stored words -/

theorem store_at {a : Word} {ws : List Ins} {T : Text} {i : ℕ} (h : i < ws.length)
    (hi : i < 2 ^ 32) : store a ws T (word a i) = ws[i] := by
  have e : (word a i - a).toNat = 4 * i := by
    rw [word, BitVec.add_comm, BitVec.add_sub_cancel, BitVec.toNat_ofNat]
    omega
  rw [store, e, if_pos (by omega), List.getD_eq_getElem?_getD, Nat.mul_div_cancel_left _ (by omega),
    List.getElem?_eq_getElem h]
  rfl

theorem store_out {a b : Word} {ws : List Ins} {T : Text}
    (h : ∀ i < ws.length, b ≠ word a i) : store a ws T b = T b := by
  unfold store
  split
  case isFalse => rfl
  case isTrue hm =>
    rw [List.getD_eq_getElem?_getD, List.getElem?_eq_none_iff.2]
    · rfl
    · by_contra hlt
      refine h _ (Nat.lt_of_not_le hlt) ?_
      rw [word, Nat.mul_div_cancel' (Nat.dvd_of_mod_eq_zero hm), BitVec.ofNat_toNat,
        BitVec.setWidth_eq, BitVec.add_comm, BitVec.sub_add_cancel]

theorem count_bounds (symbol replace : Word) :
    0 < count symbol replace ∧ count symbol replace ≤ 5 := by
  unfold count
  split_ifs <;> omega

theorem jump_length (symbol replace : Word) :
    (jump symbol replace).length = count symbol replace := by
  unfold jump
  by_cases hf : isFar symbol replace
  · have hc : count symbol replace = 5 ∨ count symbol replace = 4 := by
      unfold count
      rw [if_pos hf]
      split_ifs
      · exact .inl rfl
      · exact .inr rfl
    rw [if_pos hf]
    rcases hc with h | h
    · rw [if_pos h, h]
      rfl
    · rw [if_neg (by omega), h]
      rfl
  · rw [if_neg hf, count, if_neg hf]
    rfl

variable {ε : Type*} {isa : Isa ε} {symbol replace : Word}

/-- **A hooked symbol leads to the replacement**, with at most X17 changed. -/
theorem jump_run (isa : Isa ε) {T : Text} (h4 : symbol.toNat % 4 = 0) (hr4 : replace.toNat % 4 = 0)
    (h : ∀ i (hi : i < (jump symbol replace).length), T (word symbol i) = (jump symbol replace)[i])
    (r : Regs ε) :
    ∃ r', Reach isa T ⟨symbol, r⟩ ⟨replace, r'⟩ ∧ (r' = r ∨ r' = r.set 17 replace) := by
  -- the symbol is the start of a code of its own
  let S : Job := ⟨T, symbol, 0, symbol⟩
  have e0 : S.at 0 = symbol := BitVec.add_zero _
  have hw : S.Holds T 0 (jump symbol replace) := by
    intro i hi
    rw [Nat.zero_add]
    exact h i hi
  unfold jump at hw
  by_cases hf : isFar symbol replace
  · rw [if_pos hf] at hw
    refine ⟨r.set 17 replace, ?_, .inr rfl⟩
    by_cases hc : count symbol replace = 5
    · rw [if_pos hc] at hw
      have h0 : Reach isa T ⟨S.at 0, r⟩ ⟨S.at 1, r⟩ := Job.reach_nop (hw 0 (by simp))
      have h1 : S.Holds T 1 (Job.farJump replace) := Job.Holds.right (a := [nop]) hw
      rw [e0] at h0
      exact h0.trans (Job.reach_farJump h1)
    · rw [if_neg hc] at hw
      have h1 : Reach isa T ⟨S.at 0, r⟩ ⟨replace, r.set 17 replace⟩ := Job.reach_farJump hw
      rwa [e0] at h1
  · rw [if_neg hf] at hw
    refine ⟨r, ?_, .inl rfl⟩
    have hlt := Nat.lt_of_not_le hf
    have hd := Job.decode_b_word false ((pcOffset symbol replace).setWidth 32)
    have h0 := hw 0 (by simp)
    rw [trunc_setWidth (by omega), pcOffset, near_of (by omega) (by omega) (sub_mod hr4 h4)
      (by rw [← pcOffset]; omega)] at hd
    have hb := Job.reach_b isa r ((congrArg decode h0).trans hd)
    rw [e0, add_sub_self] at hb
    exact hb

/-! ## Steps that can be moved -/

section steps
variable (isa : Isa ε) {S : Job} (hp : S.Placed) {n : ℕ}

include hp

theorem inside_range (hn : n < S.count) : S.isInFixingRange (word S.inp n) = true :=
  (Job.range_iff hp (Job.word_mod hp n)).2 ⟨n, hn, rfl⟩

/-- A `nop` can be moved, -/
theorem nop_inside (hn : n < S.count) (h : S.text (word S.inp n) = nop) (r : Regs ε) :
    S.Inside isa ⟨word S.inp n, r⟩ ⟨word S.inp (n + 1), r⟩ := by
  have hd : decode (S.text (word S.inp n)) = .nop := by
    rw [h]
    decide
  refine ⟨inside_range hp hn, ?_, ?_⟩
  · simp only [Job.Movable, hd]
  · simp only [step, hd, Job.word_succ]

/-- and so can a branch to the outside, -/
theorem branch_inside (hn : n < S.count) {a : Word}
    (h : decode (S.text (word S.inp n)) = .b false (a - word S.inp n)) (r : Regs ε) :
    S.Inside isa ⟨word S.inp n, r⟩ ⟨a, r⟩ := by
  refine ⟨inside_range hp hn, ?_, ?_⟩
  · simp only [Job.Movable, h]
    exact fun h => (Bool.false_ne_true h).elim
  · simp only [step, h, add_sub_self]
    rfl

/-- and an absolute jump with its address behind it. -/
theorem farJump_inside (hn : n + 4 ≤ S.count) {a : Word}
    (h : ∀ i (hi : i < 4), S.text (word S.inp (n + i)) = (Job.farJump a)[i])
    (hout : S.isInFixingRange a = false)
    (hown : ∀ i < S.count, 200 ≤ (word S.inp i - S.outp).toNat) (r : Regs ε) :
    Relation.ReflTransGen (S.Inside isa) ⟨word S.inp n, r⟩ ⟨a, r.set 17 a⟩ := by
  have hd0 : decode (S.text (word S.inp n)) = .ldr .x 17 (BitVec.ofNat 64 (4 * 2)) := by
    rw [show S.text (word S.inp n) = 0x58000051 from h 0 (by omega)]
    decide
  have hd1 : decode (S.text (word S.inp (n + 1))) = .br 17 := by
    rw [show S.text (word S.inp (n + 1)) = 0xd61f0220 from h 1 (by omega)]
    decide
  have hdata : ∀ i, word (word S.inp n + BitVec.ofNat 64 (4 * 2)) i = word S.inp (n + 2 + i) := by
    intro i
    simp only [word, BitVec.add_assoc, ← BitVec.ofNat_add]
    rw [show 4 * n + 4 * 2 + 4 * i = 4 * (n + 2 + i) by omega]
  have h2 : S.text (word S.inp (n + 2)) = a.extractLsb' 0 32 := h 2 (by omega)
  have h3 : S.text (word S.inp (n + 2 + 1)) = a.extractLsb' 32 32 := h 3 (by omega)
  have hload : S.Inside isa ⟨word S.inp n, r⟩ ⟨word S.inp (n + 1), r.set 17 a⟩ := by
    refine ⟨inside_range hp (by omega), ?_, ?_⟩
    · simp only [Job.Movable, hd0]
      refine ⟨by decide, fun i hi => ?_, .inl trivial⟩
      change i < 2 at hi
      rw [hdata]
      exact hown _ (by omega)
    · simp only [step, hd0, hdata, Lit.load, Nat.add_zero, h2, h3, halves_append]
      rw [Job.word_succ]
  refine .tail (.single hload) ⟨inside_range hp (by omega), ?_, ?_⟩
  · simp only [Job.Movable, hd1]
    rwa [Regs.get_set (by decide)]
  · simp only [step, hd1]
    rw [Regs.get_set (by decide)]

end steps

/-! ## Many hooks -/

/-- A hook that asks for its trampoline and whose `mprotect` succeeds. -/
structure Hook where
  symbol : Word
  replace : Word

namespace Hook

def job (h : Hook) (T : Text) (rwx : Word) : Job := Hook64.job h.symbol h.replace T rwx

/-- The words that the hook overwrites. -/
def Over (h : Hook) (a : Word) : Prop := ∃ i < count h.symbol h.replace, a = word h.symbol i

/-- The pointers are those of code. -/
structure Fits (h : Hook) : Prop where
  symbol : h.symbol.toNat % 4 = 0
  replace : h.replace.toNat % 4 = 0
  fits : h.symbol.toInt + 2 ^ 33 < 2 ^ 63

end Hook

namespace Process

def hook (pool : Word) (m : Process) (h : Hook) : Process :=
  (A64HookFunction pool m h.symbol h.replace true true).1

def hooks (pool : Word) (m : Process) (hs : List Hook) : Process := hs.foldl (hook pool) m

end Process

/-- `a` is in `__insns_pool`. -/
def InPool (pool a : Word) : Prop := (a - pool).toNat < 200 * maxBackups

/-- The functions and the pool are apart from one another, and so are the literals
    that the first instructions of the functions load. -/
structure Apart (T : Text) (pool : Word) (hs : List Hook) : Prop where
  aligned : pool.toNat % 4 = 0
  fits : ∀ h ∈ hs, h.Fits
  symbols : hs.Pairwise fun h h' => ∀ a, h.Over a → ¬ h'.Over a
  code : ∀ h ∈ hs, ∀ a, h.Over a → ¬ InPool pool a
  data : ∀ h ∈ hs, ∀ a, (h.job T 0).Literal a → (∀ h' ∈ hs, ¬ h'.Over a) ∧ ¬ InPool pool a

section
variable {pool : Word} {m : Process} {h : Hook} {hs : List Hook} {k : ℕ}

theorem row_sub {j : ℕ} (hj : j < maxBackups) {a : Word} (ha : (a - row pool j).toNat < 200) :
    (a - pool).toNat = (a - row pool j).toNat + 200 * j := by
  unfold maxBackups at hj
  have e : a - pool = (a - row pool j) + BitVec.ofNat 64 (200 * j) := by
    rw [row, word, show 4 * (50 * j) = 200 * j by omega, ← BitVec.sub_sub, BitVec.sub_add_cancel]
  rw [e, BitVec.toNat_add, BitVec.toNat_ofNat]
  omega

theorem inPool_of_row {j : ℕ} (hj : j < maxBackups) {a : Word} (ha : (a - row pool j).toNat < 200) :
    InPool pool a := by
  have h := row_sub hj ha
  unfold InPool
  unfold maxBackups at *
  omega

theorem alloc (hk : k < maxBackups) (hm : m.index + 1 = BitVec.ofNat 32 k) :
    FastAllocateTrampoline pool m = ({ m with index := BitVec.ofNat 32 k }, some (row pool k)) := by
  unfold maxBackups at hk
  have hN : (BitVec.ofNat 32 k).toNat = k := by
    rw [BitVec.toNat_ofNat]
    omega
  have hI : (BitVec.ofNat 32 k).toInt = k := by
    rw [BitVec.toInt_eq_toNat_cond, hN, if_pos (by omega)]
  unfold FastAllocateTrampoline
  simp only [hm, hN, hI]
  rw [if_pos]
  unfold maxBackups
  omega

theorem hook_spec (hk : k < maxBackups) (hm : m.index + 1 = BitVec.ofNat 32 k) :
    A64HookFunction pool m h.symbol h.replace true true =
      (⟨store h.symbol (jump h.symbol h.replace) ((h.job m.text (row pool k)).image m.text),
        BitVec.ofNat 32 k⟩, some (row pool k)) := by
  have hc := count_bounds h.symbol h.replace
  unfold A64HookFunction
  rw [if_pos rfl, alloc hk hm]
  unfold A64HookFunctionV
  dsimp only
  rw [if_neg (by omega)]
  rfl

theorem hook_index (hk : k < maxBackups) (hm : m.index + 1 = BitVec.ofNat 32 k) :
    (m.hook pool h).index + 1 = BitVec.ofNat 32 (k + 1) := by
  rw [Process.hook, hook_spec hk hm, BitVec.ofNat_add]
  rfl

theorem placed (hf : h.Fits) (hp : pool.toNat % 4 = 0) (T : Text) (k : ℕ) :
    (h.job T (row pool k)).Placed := by
  refine ⟨(count_bounds _ _).2, hf.symbol, ?_, hf.fits⟩
  show (row pool k).toNat % 4 = 0
  rw [row, word, BitVec.toNat_add, BitVec.toNat_ofNat]
  omega

/-- A hook changes its row of the pool and the words at its symbol. -/
theorem hook_frame (hf : h.Fits) (hp : pool.toNat % 4 = 0) (hk : k < maxBackups)
    (hm : m.index + 1 = BitVec.ofNat 32 k) {a : Word} (ho : ¬ h.Over a)
    (hrow : 200 ≤ (a - row pool k).toNat) : (m.hook pool h).text a = m.text a := by
  obtain ⟨B, hB⟩ := Job.moved (placed hf hp m.text k)
  have hsize := (Job.size_le hB).2
  have hc : (h.job m.text (row pool k)).count ≤ 5 := (count_bounds _ _).2
  rw [Process.hook, hook_spec hk hm]
  show store _ _ _ a = _
  rw [store_out]
  · exact Job.image_out (Nat.le_trans (by omega) hrow)
  · intro i hi e
    rw [jump_length] at hi
    exact ho ⟨i, hi, e⟩

theorem hooks_index (hk : k + hs.length ≤ maxBackups) (hm : m.index + 1 = BitVec.ofNat 32 k) :
    (m.hooks pool hs).index + 1 = BitVec.ofNat 32 (k + hs.length) := by
  induction hs generalizing m k with
  | nil => exact hm
  | cons h hs ih =>
    rw [List.length_cons] at hk ⊢
    rw [show k + (hs.length + 1) = k + 1 + hs.length by omega]
    exact ih (m := m.hook pool h) (by omega) (hook_index (by omega) hm)

theorem hooks_frame (hp : pool.toNat % 4 = 0) (hf : ∀ h ∈ hs, h.Fits)
    (hk : k + hs.length ≤ maxBackups) (hm : m.index + 1 = BitVec.ofNat 32 k) {a : Word}
    (ho : ∀ h ∈ hs, ¬ h.Over a)
    (hrow : ∀ j, k ≤ j → j < k + hs.length → 200 ≤ (a - row pool j).toNat) :
    (m.hooks pool hs).text a = m.text a := by
  induction hs generalizing m k with
  | nil => rfl
  | cons h hs ih =>
    rw [List.length_cons] at hk hrow
    rw [List.forall_mem_cons] at hf ho
    have h1 := ih hf.2 (m := m.hook pool h) (k := k + 1) (by omega)
      (hook_index (by omega) hm) ho.2 (fun j hj hj' => hrow j (by omega) (by omega))
    exact h1.trans (hook_frame hf.1 hp (by omega) hm ho.1 (hrow k le_rfl (by omega)))

/-- The trampoline and the jump are in memory as long as other hooks stay apart. -/
theorem hook_image {T : Text} (hf : h.Fits) (hp : pool.toNat % 4 = 0) (hk : k < maxBackups)
    (hm : m.index + 1 = BitVec.ofNat 32 k) (hcode : ∀ a, h.Over a → ¬ InPool pool a)
    (hT : ∀ a, h.Over a ∨ (a - row pool k).toNat < 200 → T a = (m.hook pool h).text a) :
    (h.job m.text (row pool k)).image T = T ∧
      ∀ i (hi : i < (jump h.symbol h.replace).length),
        T (word h.symbol i) = (jump h.symbol h.replace)[i] := by
  obtain ⟨B, hB⟩ := Job.moved (placed hf hp m.text k)
  have hsize := (Job.size_le hB).2
  have hc : (h.job m.text (row pool k)).count ≤ 5 := (count_bounds _ _).2
  constructor
  · funext a
    unfold Job.image
    dsimp only
    by_cases ha : (a - row pool k).toNat % 4 = 0 ∧
        (a - row pool k).toNat / 4 < (h.job m.text (row pool k)).fixInstructions.outp
    · have hrow : (a - row pool k).toNat < 200 := by omega
      have hno : ¬ h.Over a := fun ho => hcode a ho (inPool_of_row hk hrow)
      rw [hT a (.inr hrow), Process.hook, hook_spec hk hm]
      show _ = store _ _ _ a
      rw [store_out]
      · unfold Job.image
        dsimp only
        exact (if_pos ha).trans (if_pos ha).symm
      · intro i hi e
        rw [jump_length] at hi
        exact hno ⟨i, hi, e⟩
    · exact if_neg ha
  · intro i hi
    have hi' := hi
    rw [jump_length] at hi'
    rw [hT _ (.inl ⟨i, hi', rfl⟩), Process.hook, hook_spec hk hm]
    have hc5 := (count_bounds h.symbol h.replace).2
    exact store_at hi (by omega)

/-- The hooks are those before one of them, that one, and those behind it. -/
theorem hooks_split (pool : Word) (m : Process) {hs : List Hook} {k : ℕ} (hk : k < hs.length) :
    m.hooks pool hs =
      ((m.hooks pool (hs.take k)).hook pool hs[k]).hooks pool (hs.drop (k + 1)) := by
  have hall : hs = hs.take k ++ hs[k] :: hs.drop (k + 1) := by
    rw [← List.drop_eq_getElem_cons hk, List.take_append_drop]
  conv_lhs => rw [Process.hooks, hall, List.foldl_append, List.foldl_cons]
  rfl

namespace Apart
variable (ha : Apart m.text pool hs) (hm : m.index = -1) (hlen : hs.length ≤ maxBackups)
  {k : ℕ} (hk : k < hs.length)

include ha in
theorem others {h : Hook} {a : Word} (ho : hs[k].Over a)
    (hh : h ∈ hs.take k ∨ h ∈ hs.drop (k + 1)) : ¬ h.Over a := by
  have hpair := ha.symbols
  rw [← List.take_append_drop k hs, List.drop_eq_getElem_cons hk, List.pairwise_append,
    List.pairwise_cons] at hpair
  obtain ⟨-, ⟨hafter, -⟩, hbefore⟩ := hpair
  rcases hh with hh | hh
  · exact fun ho' => hbefore h hh hs[k] List.mem_cons_self a ho' ho
  · exact hafter h hh a ho

include hm hlen hk in
omit ha in
theorem before_index : (m.hooks pool (hs.take k)).index + 1 = BitVec.ofNat 32 k := by
  have htake : (hs.take k).length = k := by rw [List.length_take]; omega
  have h : (m.hooks pool (hs.take k)).index + 1 = BitVec.ofNat 32 (0 + (hs.take k).length) :=
    hooks_index (by omega) (by rw [hm]; rfl)
  rwa [htake, Nat.zero_add] at h

include ha hm hlen hk

/-- The hooks before one change their functions and the pool only. -/
theorem before_text {a : Word} (ho : ∀ h ∈ hs.take k, ¬ h.Over a) (hpool : ¬ InPool pool a) :
    (m.hooks pool (hs.take k)).text a = m.text a := by
  have htake : (hs.take k).length = k := by rw [List.length_take]; omega
  refine hooks_frame ha.aligned (fun h hh => ha.fits h (List.mem_of_mem_take hh)) (k := 0)
    (by omega) (by rw [hm]; rfl) ho fun j _ hj => Nat.le_of_not_lt fun hlt => ?_
  exact hpool (inPool_of_row (by omega) hlt)

/-- The hooks behind one change their functions and their rows only. -/
theorem behind_text {a : Word} (ho : ∀ h ∈ hs.drop (k + 1), ¬ h.Over a)
    (hrow : ∀ j, k + 1 ≤ j → j < hs.length → 200 ≤ (a - row pool j).toNat) :
    (m.hooks pool hs).text a = ((m.hooks pool (hs.take k)).hook pool hs[k]).text a := by
  have hlen' : k + 1 + (hs.drop (k + 1)).length = hs.length := by rw [List.length_drop]; omega
  rw [hooks_split pool m hk]
  refine hooks_frame ha.aligned (fun h hh => ha.fits h (List.mem_of_mem_drop hh)) (k := k + 1)
    (by omega) (hook_index (by omega) (before_index hm hlen hk)) ho fun j hj hj' => ?_
  exact hrow j hj (by omega)

/-- The instructions that a hook moves are those before all hooks. -/
theorem own {i : ℕ} (hi : i < count hs[k].symbol hs[k].replace) :
    (m.hooks pool (hs.take k)).text (word hs[k].symbol i) = m.text (word hs[k].symbol i) := by
  have ho : hs[k].Over (word hs[k].symbol i) := ⟨i, hi, rfl⟩
  exact ha.before_text hm hlen hk (fun h hh => ha.others hk ho (.inl hh))
    (ha.code hs[k] (List.getElem_mem hk) _ ho)

/-- Neither its words nor its row are changed by the hooks behind it. -/
theorem kept {a : Word} (hx : hs[k].Over a ∨ (a - row pool k).toNat < 200) :
    (m.hooks pool hs).text a = ((m.hooks pool (hs.take k)).hook pool hs[k]).text a := by
  refine ha.behind_text hm hlen hk (fun h hh ho => ?_) fun j hj hj' =>
    Nat.le_of_not_lt fun hlt => ?_
  · rcases hx with hx | hx
    · exact ha.others hk hx (.inr hh) ho
    · exact ha.code h (List.mem_of_mem_drop hh) a ho (inPool_of_row (by omega) hx)
  · rcases hx with hx | hx
    · exact ha.code hs[k] (List.getElem_mem hk) a hx (inPool_of_row (by omega) hlt)
    · have h1 := row_sub (by omega) hx
      have h2 := row_sub (by omega) hlt
      omega

/-- The literals that its instructions load are those before all hooks. -/
theorem literal {a : Word}
    (hlit : (hs[k].job (m.hooks pool (hs.take k)).text (row pool k)).Literal a) :
    (m.hooks pool hs).text a = (m.hooks pool (hs.take k)).text a := by
  have hmem : hs[k] ∈ hs := List.getElem_mem hk
  have hlit' : (hs[k].job m.text 0).Literal a := by
    obtain ⟨ho, j, hj, k', rt, d, hd, i, hi, e⟩ := hlit
    have hins : (hs[k].job (m.hooks pool (hs.take k)).text (row pool k)).insn j =
        (hs[k].job m.text 0).insn j := ha.own hm hlen hk hj
    exact ⟨ho, j, hj, k', rt, d, by rw [← hins]; exact hd, i, hi, e⟩
  obtain ⟨hno, hpool⟩ := ha.data hs[k] hmem a hlit'
  have hout : ∀ j < maxBackups, 200 ≤ (a - row pool j).toNat := fun j hj =>
    Nat.le_of_not_lt fun hlt => hpool (inPool_of_row hj hlt)
  rw [ha.behind_text hm hlen hk (fun h hh => hno h (List.mem_of_mem_drop hh))
    fun j _ hj => hout j (by omega)]
  exact hook_frame (ha.fits hs[k] hmem) ha.aligned (by omega) (before_index hm hlen hk)
    (hno hs[k] hmem) (hout k (by omega))

end Apart

/-- **Every hooked function**: after all the hooks its symbol leads to the replacement,
    and its trampoline does what its first instructions did. -/
theorem hooks_simulate (isa : Isa ε) (hm : m.index = -1) (hs : List Hook)
    (hlen : hs.length ≤ maxBackups) (ha : Apart m.text pool hs) {k : ℕ} (hk : k < hs.length) :
    let h := hs[k]
    let before := m.hooks pool (hs.take k)
    let S := h.job before.text (row pool k)
    let T := (m.hooks pool hs).text
    (A64HookFunction pool before h.symbol h.replace true true).2 = some (row pool k) ∧
    (∀ i < S.count, S.insn i = m.text (word h.symbol i)) ∧
    (∀ r : Regs ε, ∃ r', Reach isa T ⟨h.symbol, r⟩ ⟨h.replace, r'⟩ ∧
      (r' = r ∨ r' = r.set 17 h.replace)) ∧
    ∀ i ≤ S.count, ∀ (r : Regs ε) s, Relation.ReflTransGen (S.Inside isa) ⟨word h.symbol i, r⟩ s →
      S.Follows isa T ⟨S.at (S.pos i), r⟩ s := by
  intro h before S T
  have hmem : h ∈ hs := List.getElem_mem hk
  have hfit := ha.fits h hmem
  have hidx : before.index + 1 = BitVec.ofNat 32 k := Apart.before_index hm hlen hk
  have hkb : k < maxBackups := by omega
  obtain ⟨himg, hjump⟩ := hook_image (T := T) hfit ha.aligned hkb hidx (ha.code h hmem)
    fun a hx => ha.kept hm hlen hk hx
  refine ⟨by rw [hook_spec hkb hidx], fun i hi => ha.own hm hlen hk hi,
    jump_run isa hfit.symbol hfit.replace hjump, fun i hi r s hrun => ?_⟩
  have hpl := placed hfit ha.aligned before.text k
  obtain ⟨B, hB⟩ := Job.moved hpl
  rw [← himg]
  exact hB.follows hpl (fun a hlit => ha.literal hm hlen hk hlit) hi hrun

/-- A hook near by and one far away. -/
def sampleHooks : List Hook := [⟨0x1000, 0x2000⟩, ⟨0x3000, 0x7f0000000000⟩]

theorem sample_apart : Apart (fun _ => nop) 0x100000 sampleHooks := by
  have h1 : count 0x1000 0x2000 = 1 := by decide
  have h2 : count 0x3000 0x7f0000000000 = 4 := by decide
  refine ⟨by decide, ?_, ?_, ?_, ?_⟩
  · intro h hh
    rcases List.mem_pair.1 hh with rfl | rfl
    · exact ⟨by decide, by decide, by decide⟩
    · exact ⟨by decide, by decide, by decide⟩
  · refine List.pairwise_pair.2 ?_
    rintro a ⟨i, hi, rfl⟩ ⟨j, hj, e⟩
    change i < count 0x1000 0x2000 at hi
    change j < count 0x3000 0x7f0000000000 at hj
    rw [h1] at hi
    rw [h2] at hj
    revert e
    interval_cases i
    interval_cases j <;> decide
  · intro h hh a ho
    rcases List.mem_pair.1 hh with rfl | rfl
    · obtain ⟨i, hi, rfl⟩ := ho
      change i < count 0x1000 0x2000 at hi
      rw [h1] at hi
      interval_cases i
      exact Nat.not_lt.2 (by decide)
    · obtain ⟨i, hi, rfl⟩ := ho
      change i < count 0x3000 0x7f0000000000 at hi
      rw [h2] at hi
      interval_cases i <;> exact Nat.not_lt.2 (by decide)
  · rintro h - a ⟨-, j, -, k, rt, d, hd, -⟩
    -- there are no literals
    have hn : decode nop = .nop := by decide
    cases hn.symm.trans hd

theorem hooks_simulate_pair :
    let m : Process := ⟨fun _ => nop, -1⟩
    let S := Hook.job ⟨0x3000, 0x7f0000000000⟩ (m.hooks 0x100000 [⟨0x1000, 0x2000⟩]).text
      (row 0x100000 1)
    let T := (m.hooks 0x100000 sampleHooks).text
    (∃ r', Reach (fun _ r => some (r, .next)) T ⟨0x3000, Job.zeros⟩ ⟨0x7f0000000000, r'⟩ ∧
      (r' = Job.zeros ∨ r' = Job.zeros.set 17 0x7f0000000000)) ∧
    S.Follows (fun _ r => some (r, .next)) T ⟨S.at (S.pos 0), Job.zeros⟩ ⟨0x3004, Job.zeros⟩ := by
  obtain ⟨-, hinsn, hjump, hrun⟩ := hooks_simulate (m := ⟨fun _ => nop, -1⟩)
    (fun _ r => some (r, .next)) rfl sampleHooks (by decide) sample_apart (k := 1) (by decide)
  refine ⟨hjump Job.zeros, hrun 0 (Nat.zero_le _) Job.zeros _ (.single ?_)⟩
  have hf : Hook.Fits ⟨0x3000, 0x7f0000000000⟩ := sample_apart.fits _ (by simp [sampleHooks])
  exact nop_inside _ (placed hf (by decide) _ 1) (n := 0) (by decide) (hinsn 0 (by decide)) _

/-! ## A second hook of one symbol -/

/-- The symbol was hooked before, with the same replacement. -/
structure Hooked (T : Text) (h : Hook) : Prop where
  fits : h.Fits
  words : ∀ i (hi : i < (jump h.symbol h.replace).length),
    T (word h.symbol i) = (jump h.symbol h.replace)[i]
  out : (h.job T 0).isInFixingRange h.replace = false

theorem Hooked.image {k : ℕ} (hh : Hooked m.text h) (hp : pool.toNat % 4 = 0) (hk : k < maxBackups)
    (hm : m.index + 1 = BitVec.ofNat 32 k) (hcode : ∀ a, h.Over a → ¬ InPool pool a) :
    (m.hook pool h).text = (h.job m.text (row pool k)).image m.text := by
  obtain ⟨B, hB⟩ := Job.moved (placed hh.fits hp m.text k)
  have hsize := (Job.size_le hB).2
  have hc : (h.job m.text (row pool k)).count ≤ 5 := (count_bounds _ _).2
  have hc5 := (count_bounds h.symbol h.replace).2
  rw [Process.hook, hook_spec hk hm]
  show store _ _ _ = _
  funext a
  by_cases ho : h.Over a
  · obtain ⟨i, hi, rfl⟩ := ho
    have hi' := hi
    rw [← jump_length] at hi'
    have hrow : 200 ≤ (word h.symbol i - row pool k).toNat :=
      Nat.le_of_not_lt fun hlt => hcode _ ⟨i, hi, rfl⟩ (inPool_of_row hk hlt)
    have himg : (h.job m.text (row pool k)).image m.text (word h.symbol i) = m.text (word h.symbol i) :=
      Job.image_out (Nat.le_trans (by omega) hrow)
    exact (store_at hi' (by omega)).trans ((hh.words i hi').symm.trans himg.symm)
  · refine store_out fun i hi e => ho ⟨i, ?_, e⟩
    rwa [jump_length] at hi

/-- The jump at a hooked symbol is made of instructions that can be moved. -/
theorem Hooked.inside (isa : Isa ε) {t : Word} (hh : Hooked m.text h) (hp : (h.job m.text t).Placed)
    (hown : ∀ i < count h.symbol h.replace, 200 ≤ (word h.symbol i - t).toNat) (r : Regs ε) :
    ∃ r', Relation.ReflTransGen ((h.job m.text t).Inside isa) ⟨h.symbol, r⟩ ⟨h.replace, r'⟩ := by
  have hlen := jump_length h.symbol h.replace
  have hjump := hh.words
  have e0 : word h.symbol 0 = h.symbol := BitVec.add_zero _
  unfold jump at hjump hlen
  by_cases hf : isFar h.symbol h.replace
  · rw [if_pos hf] at hlen
    simp only [if_pos hf] at hjump
    refine ⟨r.set 17 h.replace, ?_⟩
    by_cases hc : count h.symbol h.replace = 5
    · simp only [if_pos hc] at hjump
      have hnop := nop_inside isa hp (n := 0) (count_bounds _ _).1 (hjump 0 (by simp)) r
      have hrun := farJump_inside isa hp (n := 1) (Nat.le_of_eq hc.symm) (fun i hi => by
        have := hjump (1 + i) (by simp [halves]; omega)
        simpa [Job.farJump, Hook.job, job, Nat.add_comm 1] using this) hh.out hown r
      rw [← e0]
      exact .head hnop hrun
    · rw [if_neg hc] at hlen
      simp only [if_neg hc] at hjump
      have hrun := farJump_inside isa hp (n := 0) (Nat.le_of_eq hlen) (fun i hi => by
        have := hjump i (by simpa [halves] using hi)
        simpa [Job.farJump, Hook.job, job] using this) hh.out hown r
      rw [← e0]
      exact hrun
  · simp only [if_neg hf] at hjump
    have hlt := Nat.lt_of_not_le hf
    have hd := Job.decode_b_word false ((pcOffset h.symbol h.replace).setWidth 32)
    rw [trunc_setWidth (by omega), pcOffset, near_of (by omega) (by omega)
      (sub_mod hh.fits.replace hh.fits.symbol) (by rw [← pcOffset]; omega)] at hd
    have hd' : decode (m.text (word h.symbol 0)) = .b false (h.replace - word h.symbol 0) := by
      rw [hjump 0 (by simp), e0]
      exact hd
    rw [← e0]
    exact ⟨r, .single (branch_inside isa hp (n := 0) (count_bounds _ _).1 hd' r)⟩

/-- **A second hook loses the function**: its trampoline leads to the replacement. -/
theorem rehook_loops (isa : Isa ε) (hh : Hooked m.text h) (hp : pool.toNat % 4 = 0)
    (hk : k < maxBackups) (hm : m.index + 1 = BitVec.ofNat 32 k)
    (hcode : ∀ a, h.Over a → ¬ InPool pool a) (r : Regs ε) :
    (A64HookFunction pool m h.symbol h.replace true true).2 = some (row pool k) ∧
      ∃ r', Reach isa (m.hook pool h).text ⟨row pool k, r⟩ ⟨h.replace, r'⟩ := by
  refine ⟨by rw [hook_spec hk hm], ?_⟩
  have hpl := placed hh.fits hp m.text k
  obtain ⟨r', hrun⟩ := hh.inside isa hpl (fun i hi => Nat.le_of_not_lt fun hlt =>
    hcode _ ⟨i, hi, rfl⟩ (inPool_of_row hk hlt)) r
  rw [hh.image hp hk hm hcode]
  have hrun' : Relation.ReflTransGen ((h.job m.text (row pool k)).Inside isa)
      ⟨word (h.job m.text (row pool k)).inp 0, r⟩ ⟨h.replace, r'⟩ := by
    rw [show word (h.job m.text (row pool k)).inp 0 = h.symbol from BitVec.add_zero _]
    exact hrun
  obtain ⟨B, hB⟩ := Job.moved hpl
  have hfol := hB.follows hpl (fun a _ => rfl) (Nat.zero_le _) hrun'
  rw [show (h.job m.text (row pool k)).at ((h.job m.text (row pool k)).pos 0) = row pool k from
    BitVec.add_zero _] at hfol
  rcases hfol with ⟨i, hi, e, -⟩ | ⟨⟨pc, r''⟩, hr, hl⟩
  · -- the replacement is none of the moved instructions
    have hin := (Job.range_iff hpl (hh.fits.replace)).2 ⟨i, hi, e⟩
    rw [show (h.job m.text (row pool k)).isInFixingRange h.replace = false from hh.out] at hin
    cases hin
  · obtain rfl : pc = h.replace := hl.pc
    exact ⟨r'', hr⟩

theorem rehook_loops_far :
    let h : Hook := ⟨0x3000, 0x7f0000000000⟩
    let m : Process := ⟨store 0x3000 (jump 0x3000 0x7f0000000000) fun _ => nop, 0⟩
    (A64HookFunction 0x100000 m h.symbol h.replace true true).2 = some (row 0x100000 1) ∧
      ∃ r', Reach (fun _ r => some (r, .next)) (m.hook 0x100000 h).text ⟨row 0x100000 1, Job.zeros⟩
        ⟨h.replace, r'⟩ := by
  have h2 : count 0x3000 0x7f0000000000 = 4 := by decide
  refine rehook_loops _ ⟨⟨by decide, by decide, by decide⟩, fun i hi => ?_, by decide⟩ (by decide)
    (by decide) rfl (fun a ho => ?_) Job.zeros
  · have hi' := hi
    rw [jump_length] at hi'
    change i < count 0x3000 0x7f0000000000 at hi'
    exact store_at (a := 0x3000) (T := fun _ => nop) hi (by omega)
  · obtain ⟨i, hi, rfl⟩ := ho
    change i < count 0x3000 0x7f0000000000 at hi
    rw [h2] at hi
    interval_cases i <;> exact Nat.not_lt.2 (by decide)

end

end Hook64

end Raphael
