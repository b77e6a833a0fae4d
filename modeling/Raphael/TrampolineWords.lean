/-
  The words of a trampoline, and runs of single ones.

  * `image rest` is the code at run time: the trampoline, and `rest` elsewhere.
  * `reach_farJump` and `jumpBack_run` are runs of the jumps that the fixers emit.
  * The rewritten words decode to the instruction they come from, with a new
    displacement (`decode_b_word`, `decode_branch_word`, `decode_ldr_word`,
    `decode_adr_word`).
-/
import Raphael.Trampoline

namespace Raphael

open A64

namespace Relocate

namespace Job

variable (S : Job)

/-- The code at run time. -/
def image (rest : Text) : Text := fun a =>
  let k := (a - S.outp).toNat
  if k % 4 = 0 ∧ k / 4 < S.fixInstructions.outp then S.fixInstructions.mem (k / 4) else rest a

/-- The words `ws` are in the trampoline from `k` on. -/
def Holds (T : Text) (k : ℕ) (ws : List Ins) : Prop :=
  ∀ i (h : i < ws.length), T (S.at (k + i)) = ws[i]

variable {S} {ε : Type*} {isa : Isa ε} {T : Text}

theorem Holds.left {k : ℕ} {a b : List Ins} (h : S.Holds T k (a ++ b)) : S.Holds T k a := by
  intro i hi
  rw [h i (by rw [List.length_append]; omega), List.getElem_append_left hi]

theorem Holds.right {k : ℕ} {a b : List Ins} (h : S.Holds T k (a ++ b)) :
    S.Holds T (k + a.length) b := by
  intro i hi
  rw [Nat.add_assoc, h (a.length + i) (by rw [List.length_append]; omega),
    List.getElem_append_right (by omega)]
  simp

/-! ## Addresses -/

theorem at_four (k : ℕ) : S.at k + 4 = S.at (k + 1) := (word_succ _ _).symm

theorem at_mod (hp : S.Placed) (k : ℕ) : (S.at k).toNat % 4 = 0 := by
  have h := hp.outp
  simp only [«at», word, BitVec.toNat_add, BitVec.toNat_ofNat]
  omega

theorem word_mod (hp : S.Placed) (k : ℕ) : (word S.inp k).toNat % 4 = 0 := by
  have h := hp.inp
  simp only [word, BitVec.toNat_add, BitVec.toNat_ofNat]
  omega

theorem endp_toInt (hp : S.Placed) : S.endp.toInt = S.inp.toInt + 4 * S.count := by
  have h1 := hp.count
  have h2 := hp.fits
  rw [endp, word, toInt_add (by omega)]
  push_cast
  rfl

/-- The aligned addresses of the range are those of the moved instructions. -/
theorem range_iff (hp : S.Placed) {a : Word} (ha : a.toNat % 4 = 0) :
    S.isInFixingRange a = true ↔ ∃ i < S.count, a = word S.inp i := by
  have h1 := hp.count
  have h2 := hp.fits
  have h3 := hp.inp
  unfold isInFixingRange
  rw [Bool.and_eq_true, BitVec.sle_iff_toInt_le, BitVec.slt_iff_toInt_lt, endp_toInt hp]
  constructor
  · rintro ⟨hl, hr⟩
    refine ⟨((a.toInt - S.inp.toInt) / 4).toNat, by omega, ?_⟩
    apply BitVec.eq_of_toInt_eq
    rw [word, toInt_add (by omega)]
    rw [BitVec.toInt_eq_toNat_cond] at hl hr ⊢
    rw [BitVec.toInt_eq_toNat_cond] at *
    split <;> split <;> omega
  · rintro ⟨i, hi, rfl⟩
    rw [word, toInt_add (by omega)]
    omega

/-! ## Runs of single words -/

theorem reach_nop {k : ℕ} {r : Regs ε} (h : T (S.at k) = nop) :
    Reach isa T ⟨S.at k, r⟩ ⟨S.at (k + 1), r⟩ := by
  refine .single ?_
  have hd : decode nop = .nop := by decide
  simp only [step, h, hd, at_four]

theorem reach_nops {k n : ℕ} {r : Regs ε} (h : S.Holds T k (List.replicate n nop)) :
    Reach isa T ⟨S.at k, r⟩ ⟨S.at (k + n), r⟩ := by
  induction n generalizing k with
  | zero => exact .refl
  | succ n ih =>
    have h0 := h 0 (by simp)
    have hn : S.Holds T (k + 1) (List.replicate n nop) := by
      intro i hi
      have := h (i + 1) (by simpa using hi)
      simpa [Nat.add_assoc, Nat.add_comm 1] using this
    rw [show k + (n + 1) = k + 1 + n by omega]
    exact (reach_nop h0).trans (ih hn)

variable (isa) in
theorem reach_b {k : ℕ} {d : Word} {link : Bool} (r : Regs ε) (h : decode (T (S.at k)) = .b link d) :
    Reach isa T ⟨S.at k, r⟩ ⟨S.at k + d, if link then r.set 30 (S.at (k + 1)) else r⟩ := by
  refine .single ?_
  simp only [step, h, at_four]

variable (isa) in
theorem reach_branch {k : ℕ} {d : Word} {t : Test} (r : Regs ε)
    (h : decode (T (S.at k)) = .branch t d) :
    Reach isa T ⟨S.at k, r⟩ ⟨if t.eval r then S.at k + d else S.at (k + 1), r⟩ := by
  refine .single ?_
  simp only [step, h, at_four]

theorem at_word (k i : ℕ) : word (S.at k) i = S.at (k + i) := (at_add S k i).symm

/-- `ldr Xt, #(4 * n)` before the two words of `a`. -/
theorem reach_ldr {k n : ℕ} {a : Word} {rt : BitVec 5} {r : Regs ε}
    (h : decode (T (S.at k)) = .ldr .x rt (BitVec.ofNat 64 (4 * n)))
    (h0 : T (S.at (k + n)) = a.extractLsb' 0 32) (h1 : T (S.at (k + n + 1)) = a.extractLsb' 32 32) :
    Reach isa T ⟨S.at k, r⟩ ⟨S.at (k + 1), r.set rt a⟩ := by
  refine .single ?_
  simp only [step, h, at_four, ← at_add, at_word, Lit.load, Nat.add_zero, h0, h1, halves_append]

variable (isa) in
theorem reach_br {k : ℕ} (r : Regs ε) (h : T (S.at k) = 0xd61f0220) :
    Reach isa T ⟨S.at k, r⟩ ⟨r.get 17, r⟩ := by
  refine .single ?_
  have hd : decode (0xd61f0220 : Ins) = .br 17 := by decide
  simp only [step, h, hd]

/-- The far jump ends at its target with X17 changed. -/
theorem reach_farJump {k : ℕ} {a : Word} {r : Regs ε} (h : S.Holds T k (farJump a)) :
    Reach isa T ⟨S.at k, r⟩ ⟨a, r.set 17 a⟩ := by
  have h0 : T (S.at k) = 0x58000051 := h 0 (by simp [farJump])
  have hd : decode (0x58000051 : Ins) = .ldr .x 17 (BitVec.ofNat 64 (4 * 2)) := by decide
  rw [← h0] at hd
  have h1 : Reach isa T ⟨S.at k, r⟩ ⟨S.at (k + 1), r.set 17 a⟩ :=
    reach_ldr hd (h 2 (by simp [farJump, halves])) (h 3 (by simp [farJump, halves]))
  have h2 : Reach isa T ⟨S.at (k + 1), r.set 17 a⟩ ⟨(r.set 17 a).get 17, r.set 17 a⟩ :=
    reach_br isa _ (h 1 (by simp [farJump]))
  rw [Regs.get_set (by decide)] at h2
  exact h1.trans h2

/-! ## The words of the trampoline -/

/-- The jump behind the moved instructions goes to where they ended. -/
theorem jumpBack_cases (c : Context) :
    ∃ n ≤ 1, (S.jumpBack c = c.emit (List.replicate n nop ++ farJump c.inp)) ∨
      n = 0 ∧ ((c.inp - S.at c.outp).sshiftRight 2).toInt.natAbs < 0x1ffffff ∧
        S.jumpBack c = c.emit [(if false then 0x94000000 else 0x14000000) |||
          (((c.inp - S.at c.outp).sshiftRight 2).setWidth 32 &&& 0x03ffffff)] := by
  unfold jumpBack
  dsimp only
  by_cases h : ((0x03ffffff : Ins) >>> 1).toNat ≤ ((c.inp - S.at c.outp).sshiftRight 2).toInt.natAbs
  · rw [if_pos h]
    cases S.aligned (c.outp + 2) 7
    · exact ⟨1, le_rfl, .inl (Context.emit_emit _ _ _)⟩
    · exact ⟨0, by omega, .inl rfl⟩
  · rw [if_neg h]
    exact ⟨0, by omega, .inr ⟨rfl, Nat.lt_of_not_le h, rfl⟩⟩

theorem size_le {B : ℕ → Block} (hB : S.Moved B) :
    S.pos S.count ≤ S.fixInstructions.outp ∧ S.fixInstructions.outp ≤ 9 * S.count + 5 := by
  have h := hB.pos_le le_rfl
  unfold pos at h ⊢
  obtain ⟨n, hn, e | ⟨-, -, e⟩⟩ := S.jumpBack_cases (S.round S.count)
  · rw [fixInstructions, show S.fixInstruction^[S.count] S.start = S.round S.count from rfl, e]
    simp only [Context.emit_outp, List.length_append, List.length_replicate, farJump, halves,
      List.length_cons, List.length_nil]
    omega
  · rw [fixInstructions, show S.fixInstruction^[S.count] S.start = S.round S.count from rfl, e]
    simp only [Context.emit_outp, List.length_cons, List.length_nil]
    omega

/-- No round writes behind the words that it appends. -/
theorem Moved.mem_ge {B : ℕ → Block} (hB : S.Moved B) (hp : S.Placed) {i k : ℕ} (hi : i ≤ S.count)
    (hk : S.pos i ≤ k) : (S.round i).mem k = S.start.mem k := by
  induction i with
  | zero => rfl
  | succ i ih =>
    have hpos := hB.pos_succ (i := i) (by omega)
    have hout : (S.round i).outp = S.pos i := rfl
    rw [hB.place i (by omega), place_mem, foldl_patch_ne, write_ge, ih (by omega) (by omega)]
    · rw [List.length_append, List.length_replicate]
      omega
    · intro f hf
      rcases mem_insert hf with hf | hf
      · have := (hB.fmap hp (i := i) (by omega) i).2.2.1 f hf
        omega
      · obtain ⟨h, -⟩ := Emits.fix (hB.emits i (by omega)) hf
        omega

/-- **A trampoline fits in its row**: fifty words are enough, nothing is written behind
    them, and no fix map overflows. -/
theorem trampoline_fits (hp : S.Placed) :
    S.fixInstructions.outp ≤ 50 ∧ (∀ k, 50 ≤ k → S.fixInstructions.mem k = S.start.mem k) ∧
      ∀ i ≤ S.count, ∀ r, ((S.round i).fmap r).length < 10 := by
  obtain ⟨B, hB⟩ := moved hp
  have hsize := size_le hB
  have hcount := hp.count
  refine ⟨by omega, fun k hk => ?_, fun i hi r => ?_⟩
  · have hmem := hB.mem_ge hp le_rfl (k := k) (by omega)
    rw [← hmem]
    have e : S.fixInstructions = S.jumpBack (S.round S.count) := rfl
    obtain ⟨n, -, h | ⟨-, -, h⟩⟩ := S.jumpBack_cases (S.round S.count)
    · rw [e, h] at hsize ⊢
      exact write_ge (Nat.le_trans hsize.2 (by omega))
    · rw [e, h] at hsize ⊢
      exact write_ge (Nat.le_trans hsize.2 (by omega))
  · have := (hB.fmap hp hi r).1
    omega

theorem trampoline_fits_nops :
    let S : Job := ⟨fun _ => nop, 0x1000, 5, 0x100000⟩
    S.fixInstructions.outp ≤ 50 ∧ (∀ k, 50 ≤ k → S.fixInstructions.mem k = S.start.mem k) ∧
      ∀ i ≤ S.count, ∀ r, ((S.round i).fmap r).length < 10 :=
  trampoline_fits ⟨by decide, by decide, by decide, by decide⟩

theorem image_at {rest : Text} {k : ℕ} (hk : k < S.fixInstructions.outp) (h : k < 2 ^ 32) :
    S.image rest (S.at k) = S.fixInstructions.mem k := by
  have e : S.at k - S.outp = BitVec.ofNat 64 (4 * k) := by
    rw [«at», word, BitVec.add_comm, BitVec.add_sub_cancel]
  have en : (BitVec.ofNat 64 (4 * k)).toNat = 4 * k := by
    rw [BitVec.toNat_ofNat]
    omega
  unfold image
  simp only [e, en]
  rw [if_pos ⟨by omega, by rwa [Nat.mul_div_cancel_left _ (by omega)]⟩,
    Nat.mul_div_cancel_left _ (by omega)]

theorem image_out {rest : Text} {a : Word} (h : 4 * S.fixInstructions.outp ≤ (a - S.outp).toNat) :
    S.image rest a = rest a := by
  unfold image
  exact if_neg fun hk => by omega

theorem jumpBack_mem (c : Context) {k : ℕ} (hk : k < c.outp) : (S.jumpBack c).mem k = c.mem k := by
  obtain ⟨n, -, e | ⟨-, -, e⟩⟩ := S.jumpBack_cases c <;> rw [e] <;> exact write_lt hk

/-- Before the last jump the image holds what the rounds left. -/
theorem Moved.image {B : ℕ → Block} (hB : S.Moved B) (hp : S.Placed) {rest : Text} {k : ℕ}
    (hk : k < S.pos S.count) : S.image rest (S.at k) = (S.round S.count).mem k := by
  have h1 := hB.pos_le le_rfl
  have h2 := size_le hB
  have h3 := hp.count
  rw [image_at (by omega) (by omega)]
  exact jumpBack_mem _ hk

theorem Moved.holds {B : ℕ → Block} (hB : S.Moved B) (hp : S.Placed) {j : ℕ}
    (hj : j < S.count) (hf : (B j).fix = none) (rest : Text) :
    S.Holds (S.image rest) (S.pos j) (List.replicate (B j).nops nop ++ (B j).body) := by
  intro t ht
  have hpos := hB.pos_succ hj
  have hmono := hB.pos_mono (i := j + 1) hj le_rfl
  rw [hB.image hp, hB.plain hp le_rfl hj hf ht]
  rw [List.length_append, List.length_replicate] at ht
  omega

/-! ## Decoding the rewritten words -/

theorem decode_b_word (link : Bool) (x : Ins) :
    decode ((if link then 0x94000000 else 0x14000000) ||| (x &&& 0x03ffffff)) =
      .b link (disp (x.extractLsb' 0 26)) := by
  obtain ⟨h1, h2⟩ := field26 link x
  rw [decode_b (group_b.2 h1), h2]

/-- The width of the displacement of a conditional branch. -/
def branchWidth : Group → ℕ
  | .tb => 14
  | _ => 19

/-- A conditional branch keeps its test when its field is rewritten. -/
theorem decode_branch_word {ins lmask : Ins} (h : branchMask ins = some lmask) :
    ∃ (n : ℕ) (t : Test) (imm : BitVec n), n = branchWidth (group (top ins) (ins.getLsbD 4)) ∧
      (~~~lmask >>> 6).toNat < 2 ^ (n - 1) ∧ decode ins = .branch t (disp imm) ∧
      (∀ pc, absoluteAddr ins pc (group (top ins) (ins.getLsbD 4)) =
        pc + imm.setWidth 64 <<< 2) ∧
      ∀ x : Ins, decode ((x <<< 5 &&& ~~~lmask) ||| (ins &&& lmask)) =
        .branch t (disp (x.extractLsb' 0 n)) := by
  rw [branchMask_eq] at h
  split at h
  case h_1 hg =>
    cases h
    refine ⟨19, _, imm19 ins, by rw [hg]; rfl, by decide, decode_cond hg,
      fun pc => by rw [hg, absoluteAddr], fun x => ?_⟩
    obtain ⟨ht, hr, hx⟩ := field19 x ins
    rw [decode_cond ((group_congr ht hr).trans hg), hx, (low_of_rt hr).2]
  case h_2 hg =>
    cases h
    refine ⟨19, _, imm19 ins, by rw [hg]; rfl, by decide, decode_cb hg,
      fun pc => by rw [hg, absoluteAddr], fun x => ?_⟩
    obtain ⟨ht, hr, hx⟩ := field19 x ins
    rw [decode_cb ((group_congr ht hr).trans hg), hx, hr, (high_of_top ht).1, (high_of_top ht).2.1]
  case h_3 hg =>
    cases h
    refine ⟨14, _, imm14 ins, by rw [hg]; rfl, by decide, decode_tb hg,
      fun pc => by rw [hg, absoluteAddr], fun x => ?_⟩
    obtain ⟨ht, hr, hb, hx⟩ := field14 x ins
    rw [decode_tb ((group_congr ht hr).trans hg), hx, hr, hb, (high_of_top ht).2.1,
      (high_of_top ht).2.2]
  case h_4 => cases h

theorem branchWidth_bounds (g : Group) : 14 ≤ branchWidth g ∧ branchWidth g ≤ 19 := by
  unfold branchWidth
  split <;> omega

/-- The first eight bits of a literal load. -/
def litTop : Lit → BitVec 8
  | .w => 0x18
  | .x => 0x58
  | .sw => 0x98
  | .s => 0x1c
  | .d => 0x5c
  | .q => 0x9c

theorem group_ldr {op : BitVec 8} {b : Bool} {k : Lit} (h : group op b = .ldr k) : op = litTop k := by
  cases k <;> revert op b <;> decide

/-- The bits above the field keep the kind of a literal load where they are zero
    or the kind is one that they cannot change. -/
theorem decode_ldr_word {ins x : Ins} {k : Lit} (hg : group (top ins) (ins.getLsbD 4) = .ldr k)
    (hx : x.extractLsb' 19 8 = 0 ∨ k = .x ∨ k = .sw) :
    decode ((x <<< 5 &&& ~~~(litMask k ++ 0#24)) ||| (ins &&& 0xff00001f)) =
      .ldr k (rt ins) (disp (x.extractLsb' 0 19)) := by
  obtain ⟨ht, hr, himm⟩ := fieldLit (litMask k) x ins
  have htop : top ins ||| (x.extractLsb' 19 8 &&& ~~~litMask k) = top ins := by
    rw [group_ldr hg]
    generalize x.extractLsb' 19 8 = y at hx
    rcases hx with rfl | rfl | rfl
    · simp
    · revert y; decide
    · revert y; decide
  rw [htop] at ht
  rw [decode_ldr ((group_congr ht hr).trans hg), hr, himm]

/-- The near form of `adr`. -/
theorem decode_adr_word {ins : Ins} {a p : Word} (hg : group (top ins) (ins.getLsbD 4) = .adr)
    (hlow : (a - p).extractLsb' 0 2 = ins.extractLsb' 29 2)
    (hnear : (a - p).toInt.natAbs < 0xfffff)
    (hrd : rt ins ||| ((a - p).extractLsb' 0 2).setWidth 5 <<< 3 = rt ins) :
    decode ((((a - p) <<< 3).setWidth 32 &&& 0x00ffffff) ||| (ins &&& 0xff00001f)) =
      .adr (rt ins) (a - p) := by
  have hsh : ((a - p) <<< 3).setWidth 32 = ((a - p).setWidth 32) <<< 3 := by
    ext i hi
    simp
  rw [hsh]
  obtain ⟨ht, hr, himm⟩ := fieldAdr ((a - p).setWidth 32) ins
  rw [trunc_setWidth (by omega), hrd] at hr
  rw [decode_adr ((group_congr ht hr).trans hg), hr, himm]
  congr 1
  have e : ((a - p).setWidth 32).extractLsb' 2 19 ++ ins.extractLsb' 29 2 =
      (a - p).extractLsb' 0 21 := by
    rw [← hlow]
    ext i hi
    rw [BitVec.getElem_append]
    split
    · simp
    · simp [show 2 + (i - 2) = i by omega, show i < 32 by omega]
  rw [e]
  exact signExtend_trunc (by omega) (by omega) (by omega) (by omega)

theorem at_sub (S : Job) {i j : ℕ} (hi : i < 2 ^ 12) (hj : j < 2 ^ 12) :
    ((S.at i - S.at j).sshiftRight 2).toInt.natAbs < 2 ^ 13 - 1 := by
  rw [BitVec.toInt_sshiftRight, Int.shiftRight_eq_div_pow, «at», «at»,
    word_toInt _ (by omega) (by omega)]
  omega

theorem emit_holds {c : Context} {ws : List Ins}
    (h : ∀ k < (c.emit ws).outp, T (S.at k) = (c.emit ws).mem k) : S.Holds T c.outp ws := by
  intro i hi
  rw [h _ (Nat.add_lt_add_left hi c.outp)]
  exact write_at hi

variable (isa) in
theorem jumpBack_run (c : Context) (hp : S.Placed) (hc : c.inp.toNat % 4 = 0)
    (h : ∀ k < (S.jumpBack c).outp, T (S.at k) = (S.jumpBack c).mem k) (r : Regs ε) :
    ∃ r', Reach isa T ⟨S.at c.outp, r⟩ ⟨c.inp, r'⟩ ∧ (r' = r ∨ r' = r.set 17 c.inp) := by
  obtain ⟨n, hn, e | ⟨-, hnear, e⟩⟩ := S.jumpBack_cases c
  · rw [e] at h
    have hh := emit_holds h
    have hj := hh.right
    rw [List.length_replicate] at hj
    exact ⟨_, (reach_nops hh.left).trans (reach_farJump hj), .inr rfl⟩
  · rw [e] at h
    have hw := emit_holds h 0 (by simp)
    have hd := decode_b_word false (((c.inp - S.at c.outp).sshiftRight 2).setWidth 32)
    rw [trunc_setWidth (by omega), near_of (by omega) (by omega) (sub_mod hc (at_mod hp _))
      (by omega)] at hd
    have hr := reach_b isa r ((congrArg decode hw).trans hd)
    rw [Nat.add_zero, BitVec.add_comm, BitVec.sub_add_cancel] at hr
    exact ⟨_, hr, .inl rfl⟩

end Job

end Relocate

end Raphael
