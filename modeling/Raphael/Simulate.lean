/-
  Runs of a trampoline.

  * `Movable` is the condition under which one instruction can be moved: it leaves
    out what the fixers get wrong, and uses of an address of the moved code.
  * `block_sim`: the block of a movable instruction does its step.
  * `trampoline_simulates`: the trampoline does what the function did, up to where
    control leaves the moved instructions.
-/
import Raphael.TrampolineWords

namespace Raphael

open A64

namespace Relocate

namespace Job

variable {S : Job} {ε : Type*} {isa : Isa ε} {T : Text}

/-! ## References -/

/-- The word of the trampoline that instruction `i` starts at. -/
def entry (S : Job) (B : ℕ → Block) (i : ℕ) : ℕ := S.pos i + (B i).nops

namespace Moved

variable {B : ℕ → Block} (hB : S.Moved B) (hp : S.Placed) {rest : Text} {j : ℕ} (hj : j < S.count)

include hB hp hj

theorem entry_le : entry S B j ≤ 45 := by
  have h1 := hB.pos_succ hj
  have h2 := hB.pos_le (i := j + 1) hj
  have h3 := hp.count
  unfold entry
  omega

variable (rest) in
/-- **A reference is resolved** in the end: to the address itself, or to the new
    place of the instruction there. -/
theorem aimed {a ref d : Word} {ls : ℕ} {ad w : Ins} {fix : Option (ℕ × FixInfo)}
    (ha : S.Aim (S.resetCurrentIns j (S.round j)) j a ref ls ad d fix) (hb : B j = ⟨0, [w], fix⟩)
    (hr : S.isInFixingRange a = true → S.getRefInsIndex ref < S.count) :
    ∃ D, (S.isInFixingRange a = false → D = a - S.at (entry S B j)) ∧
      (S.isInFixingRange a = true →
        D = S.at (entry S B (S.getRefInsIndex ref)) - S.at (entry S B j)) ∧
      (d = D ∧ S.image rest (S.at (entry S B j)) = w ∨
        d = 0 ∧ S.image rest (S.at (entry S B j)) =
          w ||| ((D.setWidth 32).sshiftRight 2 <<< ls &&& ad)) := by
  have he : entry S B j = S.pos j := by rw [entry, hb, Nat.add_zero]
  have hlt : S.pos j < S.pos S.count := by
    have h1 := hB.pos_succ hj
    have h2 := hB.pos_mono (i := j + 1) hj le_rfl
    rw [hb] at h1
    simp only [List.length_cons, List.length_nil] at h1
    omega
  rw [he, hB.image hp hlt]
  have plain : (B j).fix = none → (S.round S.count).mem (S.pos j) = w := by
    intro hf
    have h := hB.plain hp le_rfl hj hf (t := 0) (by rw [hb]; simp)
    simpa [hb] using h
  cases ha with
  | out h =>
    refine ⟨_, fun _ => rfl, fun h' => ?_, .inl ⟨rfl, plain (by rw [hb])⟩⟩
    rw [h] at h'
    cases h'
  | back h hrj =>
    refine ⟨_, fun h' => ?_, fun _ => ?_, .inl ⟨rfl, plain (by rw [hb])⟩⟩
    · rw [h] at h'
      cases h'
    · show Function.update (S.round j).dat j (S.at (S.pos j)) _ - S.at (S.pos j) = _
      rcases Nat.lt_or_eq_of_le hrj with hlt | e
      · rw [Function.update_of_ne hlt.ne, hB.dat hj.le hlt, entry]
      · rw [e, Function.update_self, he]
  | ahead h hrj =>
    refine ⟨_, fun h' => ?_, fun _ => rfl, .inr ⟨rfl, ?_⟩⟩
    · rw [h] at h'
      cases h'
    · have hc := hr h
      have hm := hB.patched hp le_rfl hj (f := ⟨S.pos j, ls, ad⟩) (w := w) (by rw [hb]; rfl)
        (by rw [hb])
      rw [if_neg (by omega)] at hm
      exact hm

end Moved

/-! ## Simulation -/

/-- Not close below the trampoline. -/
def Above (S : Job) (a : Word) : Prop :=
  ∀ k ≤ 50, 0 ≤ (a - S.at k).toInt ∨ 2 ^ 20 ≤ (a - S.at k).toInt.natAbs

def Far (S : Job) (a : Word) : Prop := ∀ k ≤ 50, 2 ^ 20 ≤ (a - S.at k).toInt.natAbs

/-- The words outside that the moved instructions load, besides the trampoline. -/
def Literal (S : Job) (a : Word) : Prop :=
  S.isInFixingRange a = false ∧ ∃ j < S.count, ∃ k rt d,
    decode (S.insn j) = .ldr k rt d ∧ ∃ i < k.words, a = word (word S.inp j + d) i

/-- The instruction at `s` does in the trampoline what it does in its place. -/
def Movable (S : Job) (isa : Isa ε) (s : A64.State ε) : Prop :=
  match decode (S.text s.pc) with
  -- a call returns to the trampoline
  | .b link d => link = true → S.isInFixingRange (s.pc + d) = false
  -- the fixers do not extend the signs of the other displacements
  | .branch _ d => d.msb = false
  | .ldr k _ d => d.msb = false ∧ (∀ i < k.words, 200 ≤ (word (s.pc + d) i - S.outp).toNat) ∧
    (k = .x ∨ k = .sw ∨ S.Above (s.pc + d))
  | .adr rd d => d.msb = false ∧ S.isInFixingRange (s.pc + d) = false ∧
    (rd ||| (d.extractLsb' 0 2).setWidth 5 <<< 3 = rd ∨ S.Far (s.pc + d))
  | .adrp _ d => d.msb = false ∧ S.isInFixingRange ((s.pc &&& ~~~0xfff#64) + d) = false
  | .br rn => S.isInFixingRange (s.regs.get rn) = false
  | .other w => ∀ r a, isa w s.regs = some (r, .jump a) ∨ isa w s.regs = some (r, .call a) →
    S.isInFixingRange a = false
  | .prfm | .nop | .udf => True

/-- The trampoline is left for the place where the original code goes on; X17 is
    changed, and the return address of a call is in the trampoline. -/
structure Left (S : Job) (s t : A64.State ε) : Prop where
  out : S.isInFixingRange s.pc = false
  pc : t.pc = s.pc
  v : t.regs.v = s.regs.v
  nzcv : t.regs.nzcv = s.regs.nzcv
  env : t.regs.env = s.regs.env
  x : ∀ n, n ≠ 17 → n ≠ 30 → t.regs.x n = s.regs.x n
  lr : t.regs.x 30 = s.regs.x 30 ∨
    ∃ i ≤ S.count, 0 < i ∧ s.regs.x 30 = word S.inp i ∧ t.regs.x 30 = S.at (S.pos i)

/-- From `t` the trampoline comes to where the original code is at `s`. -/
def Arrives (S : Job) (isa : Isa ε) (T : Text) (B : ℕ → Block) (t s : A64.State ε) : Prop :=
  (∃ i < S.count, s.pc = word S.inp i ∧ Reach isa T t ⟨S.at (entry S B i), s.regs⟩) ∨
    ∃ t', Reach isa T t t' ∧ S.Left s t'

theorem Arrives.of_reach {B : ℕ → Block} {t t' s : A64.State ε} (h : Reach isa T t t')
    (h' : S.Arrives isa T B t' s) : S.Arrives isa T B t s := by
  rcases h' with ⟨i, hi, e, hr⟩ | ⟨t'', hr, hl⟩
  · exact .inl ⟨i, hi, e, h.trans hr⟩
  · exact .inr ⟨t'', h.trans hr, hl⟩

theorem Left.refl {s : A64.State ε} (h : S.isInFixingRange s.pc = false) : S.Left s s :=
  ⟨h, rfl, rfl, rfl, rfl, fun _ _ _ => rfl, .inl rfl⟩

theorem Left.set17 {s : A64.State ε} (h : S.isInFixingRange s.pc = false) (a : Word) :
    S.Left s ⟨s.pc, s.regs.set 17 a⟩ := by
  exact ⟨h, rfl, Regs.set_v _ _ _, Regs.set_nzcv _ _ _, Regs.set_env _ _ _,
    fun n hn _ => Regs.set_x_ne hn, .inl (Regs.set_x_ne (show (30 : BitVec 5) ≠ 17 by decide))⟩

namespace Moved

variable {B : ℕ → Block} (hB : S.Moved B) (hp : S.Placed) {rest : Text}

include hB in
theorem round_inp {i : ℕ} (hi : i ≤ S.count) : (S.round i).inp = word S.inp i := by
  induction i with
  | zero =>
    show S.inp = S.inp + 0#64
    rw [BitVec.add_zero]
  | succ i ih => rw [hB.place i hi, place_inp, ih (by omega), word_succ]

include hp in
omit hB in
theorem out_endp : S.isInFixingRange (word S.inp S.count) = false := by
  have h2 := hp.count
  rw [← Bool.not_eq_true, range_iff hp (word_mod hp _)]
  rintro ⟨i, hi, e⟩
  have e1 := getRefInsIndex_word (S := S) (i := i) (by omega)
  rw [← e, getRefInsIndex_word (by omega)] at e1
  omega

include hB hp

theorem nops {j : ℕ} (hj : j < S.count) (r : Regs ε) :
    Reach isa (S.image rest) ⟨S.at (S.pos j), r⟩ ⟨S.at (entry S B j), r⟩ := by
  cases hf : (B j).fix with
  | none => exact reach_nops (hB.holds hp hj hf rest).left
  | some p =>
    obtain ⟨-, -, h0, -⟩ := Emits.fix (hB.emits j hj) (r := p.1) (f := p.2) hf
    rw [entry, h0]
    exact .refl

/-- The end of the trampoline goes on behind the moved instructions. -/
theorem back (r : Regs ε) :
    ∃ t, Reach isa (S.image rest) ⟨S.at (S.pos S.count), r⟩ t ∧ S.Left ⟨word S.inp S.count, r⟩ t := by
  have hout := out_endp hp
  have hlen : (S.jumpBack (S.round S.count)).outp ≤ 9 * S.count + 5 := (size_le hB).2
  have hcount := hp.count
  have hinp := hB.round_inp le_rfl
  obtain ⟨r', hr, e⟩ := jumpBack_run isa (S.round S.count) hp (by rw [hinp]; exact word_mod hp _)
    (T := S.image rest) (fun k hk => image_at hk (by omega)) r
  rw [hinp] at hr e
  refine ⟨_, hr, ?_⟩
  rcases e with rfl | rfl
  · exact Left.refl hout
  · exact Left.set17 (s := ⟨word S.inp S.count, r⟩) hout _

/-- Behind the block of an instruction the run goes on with the next one. -/
theorem fall {j : ℕ} (hj : j < S.count) (r : Regs ε) :
    S.Arrives isa (S.image rest) B ⟨S.at (S.pos (j + 1)), r⟩ ⟨word S.inp (j + 1), r⟩ := by
  rcases Nat.lt_or_ge (j + 1) S.count with h | h
  · exact .inl ⟨j + 1, h, rfl, hB.nops hp h r⟩
  · rw [show j + 1 = S.count by omega]
    exact .inr (hB.back hp r)

end Moved

theorem addr_mod_b (hp : S.Placed) {j : ℕ} {link : Bool} (hg : S.grp j = .b link) :
    S.addr j = word S.inp j + disp (imm26 (S.insn j)) ∧ (S.addr j).toNat % 4 = 0 := by
  have e : S.addr j = word S.inp j + disp (imm26 (S.insn j)) := by rw [addr, hg, absoluteAddr]
  exact ⟨e, by rw [e]; exact add_mod (word_mod hp _) (disp_mod _)⟩

theorem range_ref (hp : S.Placed) {a : Word} (ha : a.toNat % 4 = 0)
    (h : S.isInFixingRange a = true) :
    S.getRefInsIndex a < S.count ∧ a = word S.inp (S.getRefInsIndex a) := by
  obtain ⟨i, hi, rfl⟩ := (range_iff hp ha).1 h
  have hc := hp.count
  rw [getRefInsIndex_word (by omega)]
  exact ⟨hi, rfl⟩

namespace Moved

variable {B : ℕ → Block} (hB : S.Moved B) (hp : S.Placed) {rest : Text} {j : ℕ} (hj : j < S.count)

include hB hp hj

variable (rest) in
/-- The word of a reference decodes to the distance to its target. -/
theorem resolved {a d : Word} {ls n : ℕ} {ad : Ins} {fix : Option (ℕ × FixInfo)}
    (ha : S.Aim (S.resetCurrentIns j (S.round j)) j a a ls ad d fix) {f : Ins → Ins}
    (hb : B j = ⟨0, [f ((d.sshiftRight 2).setWidth 32)], fix⟩) (mk : Word → Op)
    (hpatch : ∀ y : Ins, f 0 ||| (y <<< ls &&& ad) = f y) (hn : 14 ≤ n) (hn' : n ≤ 30)
    (hf : ∀ x, decode (f x) = mk (disp (x.extractLsb' 0 n))) (h4 : a.toNat % 4 = 0)
    (hnear : S.isInFixingRange a = false → (d.sshiftRight 2).toInt.natAbs < 2 ^ (n - 1)) :
    ∃ D, decode (S.image rest (S.at (entry S B j))) = mk D ∧
      (S.isInFixingRange a = false → S.at (entry S B j) + D = a) ∧
      (S.isInFixingRange a = true →
        S.at (entry S B j) + D = S.at (entry S B (S.getRefInsIndex a))) := by
  obtain ⟨D, hout, hin, h⟩ := hB.aimed hp rest hj ha hb fun h => (range_ref hp h4 h).1
  have hD : disp ((D.sshiftRight 2).extractLsb' 0 n) = D := by
    have hpow : 2 ^ 13 ≤ 2 ^ (n - 1) := Nat.pow_le_pow_right (by omega) (by omega)
    cases hs : S.isInFixingRange a with
    | true =>
      have h1 := hB.entry_le hp hj
      have h2 := hB.entry_le hp (range_ref hp h4 hs).1
      rw [hin hs]
      refine near_of (by omega) (by omega) (sub_mod (at_mod hp _) (at_mod hp _)) ?_
      have := at_sub S (i := entry S B (S.getRefInsIndex a)) (j := entry S B j) (by omega) (by omega)
      omega
    | false =>
      have hd : d = D := by
        cases ha with
        | out h' => rw [hout hs, entry, hb]; rfl
        | back h' | ahead h' => rw [hs] at h'; cases h'
      refine near_of (by omega) (by omega) ?_ (hd ▸ hnear hs)
      rw [hout hs]
      exact sub_mod h4 (at_mod hp _)
  refine ⟨D, ?_, fun hs => by rw [hout hs, add_sub_self], fun hs => by rw [hin hs, add_sub_self]⟩
  rcases h with ⟨rfl, e⟩ | ⟨rfl, e⟩
  · rw [e, hf, trunc_setWidth (by omega), hD]
  · have h0 : ((0 : Word).sshiftRight 2).setWidth 32 = (0 : Ins) := by decide
    rw [e, h0, hpatch, hf, trunc_patch hn', hD]

theorem sim_b {link : Bool} {d : Word} {fix : Option (ℕ × FixInfo)} {r : Regs ε} {s' : A64.State ε}
    (hg : S.grp j = .b link)
    (hb : B j = ⟨0, [(if link then 0x94000000 else 0x14000000) |||
        ((d.sshiftRight 2).setWidth 32 &&& 0x03ffffff)], fix⟩)
    (ha : S.Aim (S.resetCurrentIns j (S.round j)) j (S.addr j) (S.addr j) 0 0x03ffffff d fix)
    (hn : S.isInFixingRange (S.addr j) = false → (d.sshiftRight 2).toInt.natAbs < 0x1ffffff)
    (hm : S.Movable isa ⟨word S.inp j, r⟩)
    (hs : step isa S.text ⟨word S.inp j, r⟩ = some s') :
    S.Arrives isa (S.image rest) B ⟨S.at (entry S B j), r⟩ s' := by
  obtain ⟨eaddr, h4⟩ := addr_mod_b hp hg
  have hdec : decode (S.text (word S.inp j)) = .b link (disp (imm26 (S.insn j))) := decode_b hg
  obtain ⟨D, hD, hout, hin⟩ := hB.resolved hp rest hj ha
    (f := fun x => (if link then 0x94000000 else 0x14000000) ||| (x &&& 0x03ffffff)) hb
    (.b link) (fun y => by simp) (n := 26) (by omega) (by omega) (decode_b_word link) h4
    (fun h => by have := hn h; omega)
  have hr := reach_b isa r hD
  simp only [step, hdec, Option.some.injEq] at hs
  simp only [Movable, hdec] at hm
  subst hs
  rw [← eaddr] at hm ⊢
  cases hs : S.isInFixingRange (S.addr j) with
  | true =>
    cases link with
    | true => rw [hm rfl] at hs; cases hs
    | false =>
      obtain ⟨hi, e⟩ := range_ref hp h4 hs
      rw [hin hs] at hr
      exact .inl ⟨_, hi, e, hr⟩
  | false =>
    rw [hout hs] at hr
    refine .inr ⟨_, hr, ?_⟩
    cases link with
    | false => exact Left.refl hs
    | true =>
      have he : entry S B j + 1 = S.pos (j + 1) := by
        rw [hB.pos_succ hj, entry, hb]
        rfl
      refine ⟨hs, rfl, ?_, ?_, ?_, fun n hn hn' => ?_, .inr ⟨j + 1, hj, by omega, ?_, ?_⟩⟩
      · simp
      · simp
      · simp
      · rw [if_pos rfl, if_pos rfl, Regs.set_x_ne hn', Regs.set_x_ne hn']
      · rw [if_pos rfl, Regs.set_x_self (by decide), word_succ]
      · rw [if_pos rfl, Regs.set_x_self (by decide), he]

end Moved
namespace Moved

variable {B : ℕ → Block} (hB : S.Moved B) (hp : S.Placed) {rest : Text} {j : ℕ} (hj : j < S.count)

include hB hp hj

variable (rest) in
/-- The words of a block without a reference ahead. -/
theorem body (hf : (B j).fix = none) : S.Holds (S.image rest) (entry S B j) (B j).body := by
  have h := (hB.holds hp hj hf rest).right
  rwa [List.length_replicate] at h

omit hp in
theorem pos_next : S.pos (j + 1) = entry S B j + (B j).body.length := hB.pos_succ hj

theorem sim_bFar {n : ℕ} {r : Regs ε} {s' : A64.State ε} (hg : S.grp j = .b false)
    (hb : B j = ⟨n, farJump (S.addr j), none⟩) (ho : S.isInFixingRange (S.addr j) = false)
    (hs : step isa S.text ⟨word S.inp j, r⟩ = some s') :
    S.Arrives isa (S.image rest) B ⟨S.at (entry S B j), r⟩ s' := by
  have hdec : decode (S.text (word S.inp j)) = .b false (disp (imm26 (S.insn j))) := decode_b hg
  have hbody := hB.body hp rest hj (by rw [hb])
  rw [hb] at hbody
  simp only [step, hdec, Option.some.injEq] at hs
  subst hs
  rw [← (addr_mod_b hp hg).1]
  exact .inr ⟨_, reach_farJump hbody, Left.set17 (s := ⟨S.addr j, r⟩) ho _⟩

theorem sim_blFar {n : ℕ} {r : Regs ε} {s' : A64.State ε} (hg : S.grp j = .b true)
    (hb : B j = ⟨n, [0x58000071, 0x1000009e, 0xd61f0220] ++ halves (S.addr j), none⟩)
    (ho : S.isInFixingRange (S.addr j) = false)
    (hs : step isa S.text ⟨word S.inp j, r⟩ = some s') :
    S.Arrives isa (S.image rest) B ⟨S.at (entry S B j), r⟩ s' := by
  have hdec : decode (S.text (word S.inp j)) = .b true (disp (imm26 (S.insn j))) := decode_b hg
  have hbody := hB.body hp rest hj (by rw [hb])
  have hnext : S.pos (j + 1) = entry S B j + 5 := by rw [hB.pos_next hj, hb]; rfl
  rw [hb] at hbody
  generalize entry S B j = k at *
  have hd0 : decode (0x58000071 : Ins) = .ldr .x 17 (BitVec.ofNat 64 (4 * 3)) := by decide
  have hd1 : decode (0x1000009e : Ins) = .adr 30 (BitVec.ofNat 64 (4 * 4)) := by decide
  have hw0 : S.image rest (S.at k) = 0x58000071 := hbody 0 (by simp [halves])
  have hw1 : S.image rest (S.at (k + 1)) = 0x1000009e := hbody 1 (by simp [halves])
  rw [← hw0] at hd0
  rw [← hw1] at hd1
  have h1 : Reach isa (S.image rest) ⟨S.at k, r⟩ ⟨S.at (k + 1), r.set 17 (S.addr j)⟩ :=
    reach_ldr hd0 (hbody 3 (by simp [halves])) (hbody 4 (by simp [halves]))
  have h2 : Reach isa (S.image rest) ⟨S.at (k + 1), r.set 17 (S.addr j)⟩
      ⟨S.at (k + 2), (r.set 17 (S.addr j)).set 30 (S.at (k + 5))⟩ := by
    refine .single ?_
    simp only [step, hd1, at_four, ← at_add]
  have h3 := reach_br isa ((r.set 17 (S.addr j)).set 30 (S.at (k + 5)))
    (hbody 2 (by simp [halves]))
  have hget : ((r.set 17 (S.addr j)).set 30 (S.at (k + 5))).get 17 = S.addr j := by
    rw [Regs.get, if_neg (by decide), Regs.set_x_ne (by decide), Regs.set_x_self (by decide)]
  rw [hget] at h3
  simp only [step, hdec, Option.some.injEq, if_true] at hs
  subst hs
  rw [← (addr_mod_b hp hg).1]
  refine .inr ⟨_, (h1.trans h2).trans h3, ⟨ho, rfl, ?_, ?_, ?_, fun n hn hn' => ?_,
    .inr ⟨j + 1, hj, by omega, ?_, ?_⟩⟩⟩
  · simp
  · simp
  · simp
  · rw [Regs.set_x_ne hn', Regs.set_x_ne hn', Regs.set_x_ne hn]
  · rw [Regs.set_x_self (by decide), word_succ]
  · rw [Regs.set_x_self (by decide), hnext]

variable (isa rest) in
/-- **A moved conditional branch** goes on behind its block, or to the address that the
    fixer took for its target. -/
theorem branch_run {lmask : Ins} (hmask : branchMask (S.insn j) = some lmask) :
    ∃ (n : ℕ) (t : Test) (imm : BitVec n), n = branchWidth (S.grp j) ∧
      decode (S.text (word S.inp j)) = .branch t (disp imm) ∧
      S.addr j = word S.inp j + imm.setWidth 64 <<< 2 ∧ (S.addr j).toNat % 4 = 0 ∧
      ∀ r : Regs ε,
        (t.eval r = false →
          Reach isa (S.image rest) ⟨S.at (entry S B j), r⟩ ⟨S.at (S.pos (j + 1)), r⟩) ∧
        (t.eval r = true → S.isInFixingRange (S.addr j) = true →
          Reach isa (S.image rest) ⟨S.at (entry S B j), r⟩
            ⟨S.at (entry S B (S.getRefInsIndex (S.addr j))), r⟩) ∧
        (t.eval r = true → S.isInFixingRange (S.addr j) = false → ∃ r',
          Reach isa (S.image rest) ⟨S.at (entry S B j), r⟩ ⟨S.addr j, r'⟩ ∧
            (r' = r ∨ r' = r.set 17 (S.addr j))) := by
  obtain ⟨n, t, imm, hn, hlim, hdec, habs, hword⟩ := decode_branch_word hmask
  have hwidth := branchWidth_bounds (S.grp j)
  rw [show branchWidth (S.grp j) = n from hn.symm] at hwidth
  have eaddr : S.addr j = word S.inp j + imm.setWidth 64 <<< 2 := habs _
  have h4 : (S.addr j).toNat % 4 = 0 := by
    have h1 := word_mod hp (S := S) j
    rw [eaddr, BitVec.toNat_add, BitVec.toNat_shiftLeft, BitVec.toNat_setWidth, Nat.shiftLeft_eq]
    omega
  refine ⟨n, t, imm, hn, hdec, eaddr, h4, fun r => ?_⟩
  have he := hB.emits j hj
  generalize hg : S.grp j = g at he
  generalize hb : B j = b at he
  rw [branchMask_eq, show group (top (S.insn j)) ((S.insn j).getLsbD 4) = g from hg] at hmask
  cases he with
  | @branch _ lmask' d fix hm ha hnear =>
    rw [branchMask_eq, show group (top (S.insn j)) ((S.insn j).getLsbD 4) = g from hg, hmask] at hm
    cases hm
    rw [setWidth_shift] at hb
    obtain ⟨D, hD, hout, hin⟩ := hB.resolved hp rest hj ha
      (f := fun x => (x <<< 5 &&& ~~~lmask) ||| (S.insn j &&& lmask)) hb
      (.branch t) (fun y => by simp [BitVec.or_comm]) (n := n) hwidth.1 (by omega) hword h4
      (fun h => (hnear h).trans hlim)
    have hr := reach_branch isa r hD
    refine ⟨fun ht => ?_, fun ht hs => ?_, fun ht hs => ⟨r, ?_, .inl rfl⟩⟩
    · have hnext : S.pos (j + 1) = entry S B j + 1 := by rw [hB.pos_next hj, hb]; rfl
      rwa [ht, ← hnext] at hr
    · rwa [ht, if_pos rfl, hin hs] at hr
    · rwa [ht, if_pos rfl, hout hs] at hr
  | @branchFar _ lmask' m hm _ ho =>
    rw [branchMask_eq, show group (top (S.insn j)) ((S.insn j).getLsbD 4) = g from hg, hmask] at hm
    cases hm
    have hbody := hB.body hp rest hj (by rw [hb])
    have hnext : S.pos (j + 1) = entry S B j + 6 := by rw [hB.pos_next hj, hb]; rfl
    rw [hb] at hbody
    rw [ho]
    generalize entry S B j = k at *
    -- the test jumps over the jump that goes on behind the block
    have hw0 : S.image rest (S.at k) = _ := hbody 0 (by simp)
    have hw1 : S.image rest (S.at (k + 1)) = 0x14000005 := hbody 1 (by simp)
    have hd0 : decode (S.image rest (S.at k)) = .branch t (BitVec.ofNat 64 (4 * 2)) := by
      rw [hw0]
      have h2 : (2 : Ins) = ((8 : Word).sshiftRight 2).setWidth 32 := by decide
      have hpow : 2 ^ 13 ≤ 2 ^ (n - 1) := Nat.pow_le_pow_right (by omega) (by omega)
      have h8 : ((8 : Word).sshiftRight 2).toInt.natAbs = 2 := by decide
      refine (hword 2).trans (congrArg (Op.branch t) ?_)
      rw [h2, trunc_setWidth (by omega), near_of (by omega) (by omega) (by decide) (by omega)]
      rfl
    have hd1 : decode (0x14000005 : Ins) = .b false (BitVec.ofNat 64 (4 * 5)) := by decide
    rw [← hw1] at hd1
    have h0 := reach_branch isa r hd0
    refine ⟨fun ht => ?_, fun _ hs => (Bool.false_ne_true hs).elim, fun ht _ => ⟨_, ?_, .inr rfl⟩⟩
    · have h1 := reach_b isa r hd1
      rw [ht, if_neg (by decide)] at h0
      rw [if_neg (by decide), ← at_add] at h1
      rw [hnext]
      exact h0.trans h1
    · have hj2 : S.Holds (S.image rest) (k + 2) (farJump (S.addr j)) := hbody.right
      rw [ht, if_pos rfl, ← at_add] at h0
      exact h0.trans (reach_farJump hj2)
  | adrFar hg' => rcases hg' with rfl | rfl <;> cases hmask
  | _ => cases hmask

theorem sim_branch {lmask : Ins} {r : Regs ε} {s' : A64.State ε}
    (hmask : branchMask (S.insn j) = some lmask) (hm : S.Movable isa ⟨word S.inp j, r⟩)
    (hs : step isa S.text ⟨word S.inp j, r⟩ = some s') :
    S.Arrives isa (S.image rest) B ⟨S.at (entry S B j), r⟩ s' := by
  obtain ⟨n, t, imm, hn, hdec, eaddr, h4, hrun⟩ := hB.branch_run isa hp rest hj hmask
  obtain ⟨hnot, hin, hout⟩ := hrun r
  have hwidth := branchWidth_bounds (S.grp j)
  simp only [step, hdec, Option.some.injEq] at hs
  simp only [Movable, hdec] at hm
  rw [disp_unsigned (by omega) (by omega) hm] at eaddr
  subst hs
  rw [← eaddr]
  cases htest : t.eval r with
  | false =>
    have hfall := (hB.fall hp hj r).of_reach (hnot htest)
    rwa [word_succ] at hfall
  | true =>
    cases hs : S.isInFixingRange (S.addr j) with
    | true =>
      obtain ⟨hi, e⟩ := range_ref hp h4 hs
      exact .inl ⟨_, hi, e, hin htest hs⟩
    | false =>
      obtain ⟨r', hr, e⟩ := hout htest hs
      refine .inr ⟨_, hr, ?_⟩
      rcases e with rfl | rfl
      · exact Left.refl hs
      · exact Left.set17 (s := ⟨S.addr j, r⟩) hs _

end Moved

theorem lit_addr {j : ℕ} {k : Lit} (hg : S.grp j = .ldr k)
    (hm : (disp (imm19 (S.insn j))).msb = false) :
    S.addr j = word S.inp j + disp (imm19 (S.insn j)) := by
  have h := hm
  rw [msb_disp (by omega) (by omega)] at h
  rw [addr, hg, absoluteAddr]
  congr 1
  rw [BitVec.signExtend_eq_setWidth_of_msb_false h, disp, BitVec.signExtend_eq_setWidth_of_msb_false h]
  ext i hi
  simp only [BitVec.getElem_setWidth, BitVec.getLsbD_shiftLeft, BitVec.getElem_shiftLeft,
    BitVec.getLsbD_setWidth]
  by_cases h2 : i < 2
  · simp [h2]
  · by_cases h3 : i - 2 < 19
    · simp [h2, show i < 32 by omega, show i - 2 < 32 by omega]
    · simp [h2, BitVec.getLsbD_of_ge _ _ (Nat.le_of_not_lt h3)]

/-- A literal behind the moved code stays where it is. -/
theorem lit_out (hp : S.Placed) {j i : ℕ} {d : Word} (hj : j < S.count) (hi : i < 4)
    (hd : d.toNat < 2 ^ 32) (h : S.isInFixingRange (word S.inp j + d) = false) :
    S.isInFixingRange (word (word S.inp j + d) i) = false := by
  have h1 := hp.count
  have h2 := hp.fits
  have e : word S.inp j + d = S.inp + BitVec.ofNat 64 (4 * j + d.toNat) := by
    rw [word, BitVec.ofNat_add, BitVec.ofNat_toNat, BitVec.setWidth_eq, BitVec.add_assoc]
  have e' : word (word S.inp j + d) i = S.inp + BitVec.ofNat 64 (4 * j + d.toNat + 4 * i) := by
    rw [e, word, BitVec.add_assoc, ← BitVec.ofNat_add]
  rw [e] at h
  rw [e', ← Bool.not_eq_true]
  rw [← Bool.not_eq_true] at h
  unfold isInFixingRange at *
  rw [Bool.and_eq_true, BitVec.sle_iff_toInt_le, BitVec.slt_iff_toInt_lt, endp_toInt hp,
    toInt_add (by omega)] at *
  omega

namespace Moved

variable {B : ℕ → Block} (hB : S.Moved B) (hp : S.Placed) {rest : Text} {j : ℕ} (hj : j < S.count)

include hB hp hj

theorem sim_prfm {r : Regs ε} {s' : A64.State ε} (hg : S.grp j = .prfm) (hb : B j = ⟨0, [], none⟩)
    (hs : step isa S.text ⟨word S.inp j, r⟩ = some s') :
    S.Arrives isa (S.image rest) B ⟨S.at (entry S B j), r⟩ s' := by
  have hdec : decode (S.text (word S.inp j)) = .prfm := decode_prfm hg
  have hnext : S.pos (j + 1) = entry S B j := by rw [hB.pos_next hj, hb]; rfl
  simp only [step, hdec, Option.some.injEq] at hs
  subst hs
  rw [← hnext, ← word_succ]
  exact hB.fall hp hj r

theorem sim_ldrFar {k : Lit} {n ns : ℕ} {r : Regs ε} {s' : A64.State ε} (hg : S.grp j = .ldr k)
    (hns : ((litAlign k).toNat + 1) / 4 = ns)
    (hb : B j = ⟨n, [((2 : Ins) <<< 5 &&& ~~~(litMask k ++ 0#24)) ||| (S.insn j &&& 0xff00001f),
        0x14000001 + BitVec.ofNat 32 ns] ++
      (List.range ns).map fun i => S.text (word (S.addr j) i), none⟩)
    (hm : S.Movable isa ⟨word S.inp j, r⟩)
    (hs : step isa S.text ⟨word S.inp j, r⟩ = some s') :
    S.Arrives isa (S.image rest) B ⟨S.at (entry S B j), r⟩ s' := by
  have hdec : decode (S.text (word S.inp j)) = .ldr k (rt (S.insn j)) (disp (imm19 (S.insn j))) :=
    decode_ldr hg
  simp only [step, hdec, Option.some.injEq] at hs
  simp only [Movable, hdec] at hm
  rw [← lit_addr hg hm.1] at hs
  subst hs
  have hbody := hB.body hp rest hj (by rw [hb])
  have hnext := hB.pos_next hj
  rw [hb] at hbody hnext
  have hwords : k.words ≤ ns := by
    rw [← hns]
    cases k <;> decide
  have hd1 : decode (0x14000001 + BitVec.ofNat 32 ns) = .b false (BitVec.ofNat 64 (4 * (1 + ns))) := by
    rw [← hns]
    cases k <;> decide
  have hx : (2 : Ins).extractLsb' 19 8 = 0 := by decide
  have hy : disp ((2 : Ins).extractLsb' 0 19) = BitVec.ofNat 64 (4 * 2) := by decide
  have hd0 := decode_ldr_word (x := 2) hg (.inl hx)
  rw [hy] at hd0
  simp only [List.length_append, List.length_cons, List.length_nil, List.length_map,
    List.length_range] at hnext
  generalize entry S B j = e at *
  have hw0 : S.image rest (S.at e) = _ := hbody 0 (by simp)
  have hw1 : S.image rest (S.at (e + 1)) = _ := hbody 1 (by simp)
  have hdata : ∀ i < ns, S.image rest (S.at (e + 2 + i)) = S.text (word (S.addr j) i) := by
    intro i hi
    have := hbody.right i (by simpa using hi)
    simpa using this
  have h0 : Reach isa (S.image rest) ⟨S.at e, r⟩
      ⟨S.at (e + 1), k.load (fun i => S.text (word (S.addr j) i)) (rt (S.insn j)) r⟩ := by
    refine .single ?_
    simp only [step, hw0]
    simp only [List.cons_append, List.getElem_cons_zero, hd0, at_four, ← at_add, at_word]
    refine congrArg some (congrArg (A64.State.mk _) (Lit.load_congr (fun i hi => ?_) _ _))
    exact hdata i (by omega)
  have h1 := reach_b isa (k.load (fun i => S.text (word (S.addr j) i)) (rt (S.insn j)) r)
    ((congrArg decode hw1).trans hd1)
  rw [if_neg (by decide), ← at_add, show e + 1 + (1 + ns) = S.pos (j + 1) by omega] at h1
  have hfall := (hB.fall hp hj _).of_reach (h0.trans h1)
  rwa [word_succ] at hfall

end Moved

/-- A near literal that does not lie below leaves the bits above the field zero. -/
theorem above_bits {a : Word} {e : ℕ} (he : e ≤ 50) (h : S.Above a)
    (hd : ((a - S.at e).sshiftRight 2).toInt.natAbs < 0x3ffff) :
    (((a - S.at e).sshiftRight 2).setWidth 32).extractLsb' 19 8 = 0 := by
  have h' := h e he
  rw [BitVec.toInt_sshiftRight, Int.shiftRight_eq_div_pow] at hd
  have hpos : 0 ≤ ((a - S.at e).sshiftRight 2).toInt := by
    rw [BitVec.toInt_sshiftRight, Int.shiftRight_eq_div_pow]
    omega
  have hlt : ((a - S.at e).sshiftRight 2).toInt < 2 ^ 18 := by
    rw [BitVec.toInt_sshiftRight, Int.shiftRight_eq_div_pow]
    omega
  generalize (a - S.at e).sshiftRight 2 = x at *
  have hx : x.toNat < 2 ^ 18 := by
    rw [BitVec.toInt_eq_toNat_cond] at hpos hlt
    have := x.isLt
    split at hpos <;> omega
  apply BitVec.eq_of_toNat_eq
  rw [BitVec.extractLsb'_toNat, BitVec.toNat_setWidth, Nat.shiftRight_eq_div_pow]
  show _ = 0
  omega

namespace Moved

variable {B : ℕ → Block} (hB : S.Moved B) (hp : S.Placed) {rest : Text} {j : ℕ} (hj : j < S.count)

include hB hp hj

theorem sim_ldr (hrest : ∀ a, S.Literal a → rest a = S.text a) {k : Lit} {n : ℕ}
    {r : Regs ε} {s' : A64.State ε} (hg : S.grp j = .ldr k)
    (hb : B j = ⟨n, [(((S.addr j - S.at (S.pos j + n)).sshiftRight 2 <<< 5).setWidth 32 &&&
        ~~~(litMask k ++ 0#24)) ||| (S.insn j &&& 0xff00001f)], none⟩)
    (ho : S.isInFixingRange (S.addr j) = false)
    (hd : ((S.addr j - S.at (S.pos j + n)).sshiftRight 2).toInt.natAbs < 0x3ffff)
    (hm : S.Movable isa ⟨word S.inp j, r⟩)
    (hs : step isa S.text ⟨word S.inp j, r⟩ = some s') :
    S.Arrives isa (S.image rest) B ⟨S.at (entry S B j), r⟩ s' := by
  have hdec : decode (S.text (word S.inp j)) = .ldr k (rt (S.insn j)) (disp (imm19 (S.insn j))) :=
    decode_ldr hg
  simp only [step, hdec, Option.some.injEq] at hs
  simp only [Movable, hdec] at hm
  obtain ⟨hm1, hm2, hm3⟩ := hm
  have eaddr := lit_addr hg hm1
  have h4 : (S.addr j).toNat % 4 = 0 := by
    rw [eaddr]
    exact add_mod (word_mod hp _) (disp_mod _)
  have hbody := hB.body hp rest hj (by rw [hb])
  have hnext := hB.pos_next hj
  have he : entry S B j = S.pos j + n := by rw [entry, hb]
  have he50 := hB.entry_le hp hj
  rw [hb, setWidth_shift] at hbody
  rw [hb] at hnext
  rw [← he] at hd hbody
  -- the rewritten load is the same load of the same address
  have hx : (((S.addr j - S.at (entry S B j)).sshiftRight 2).setWidth 32).extractLsb' 19 8 = 0 ∨
      k = .x ∨ k = .sw := by
    rcases hm3 with h | h | h
    · exact .inr (.inl h)
    · exact .inr (.inr h)
    · rw [← eaddr] at h
      exact .inl (above_bits (by omega) h hd)
  have hd0 := decode_ldr_word hg hx
  rw [trunc_setWidth (by omega), near_of (by omega) (by omega) (sub_mod h4 (at_mod hp _)) (by omega)]
    at hd0
  have hw0 : S.image rest (S.at (entry S B j)) = _ := hbody 0 (by simp)
  have hsize := (size_le hB).2
  have hcount := hp.count
  have hwords : k.words ≤ 4 := by cases k <;> decide
  have hdata : ∀ i < k.words, S.image rest (word (S.addr j) i) = S.text (word (S.addr j) i) := by
    intro i hi
    rw [← eaddr] at hm2
    have h200 := hm2 i hi
    rw [image_out (by omega)]
    refine hrest _ ⟨?_, j, hj, k, _, _, hdec, i, hi, by rw [eaddr]⟩
    have hlt : (disp (imm19 (S.insn j))).toNat < 2 ^ 32 := by
      rw [msb_disp (by omega) (by omega)] at hm1
      rw [disp, BitVec.signExtend_eq_setWidth_of_msb_false hm1, BitVec.toNat_shiftLeft,
        BitVec.toNat_setWidth, Nat.shiftLeft_eq]
      have := (imm19 (S.insn j)).isLt
      omega
    rw [eaddr]
    exact lit_out hp hj (by omega) hlt (by rw [← eaddr]; exact ho)
  have h0 : Reach isa (S.image rest) ⟨S.at (entry S B j), r⟩
      ⟨S.at (S.pos (j + 1)), k.load (fun i => S.text (word (S.addr j) i)) (rt (S.insn j)) r⟩ := by
    refine .single ?_
    simp only [step, hw0]
    simp only [List.getElem_cons_zero, hd0, at_four, add_sub_self]
    rw [hnext]
    exact congrArg some (congrArg (A64.State.mk _) (Lit.load_congr hdata _ _))
  subst hs
  rw [← eaddr]
  have hfall := (hB.fall hp hj _).of_reach h0
  rwa [word_succ] at hfall

theorem sim_copy {r : Regs ε} {s' : A64.State ε} (hg : S.grp j = .rest)
    (hb : B j = ⟨0, [S.insn j], none⟩) (hm : S.Movable isa ⟨word S.inp j, r⟩)
    (hs : step isa S.text ⟨word S.inp j, r⟩ = some s') :
    S.Arrives isa (S.image rest) B ⟨S.at (entry S B j), r⟩ s' := by
  have hbody := hB.body hp rest hj (by rw [hb])
  have hnext : S.pos (j + 1) = entry S B j + 1 := by rw [hB.pos_next hj, hb]; rfl
  rw [hb] at hbody
  have hw : S.image rest (S.at (entry S B j)) = S.text (word S.inp j) := hbody 0 (by simp)
  -- behind the copy the run goes on as behind the instruction
  have hnextf : ∀ r', Reach isa (S.image rest) ⟨S.at (entry S B j), r⟩ ⟨S.at (entry S B j) + 4, r'⟩ →
      S.Arrives isa (S.image rest) B ⟨S.at (entry S B j), r⟩ ⟨word S.inp j + 4, r'⟩ := by
    intro r' h
    rw [at_four, ← hnext] at h
    rw [← word_succ]
    exact (hB.fall hp hj r').of_reach h
  have hstep : ∀ t, step isa (S.image rest) ⟨S.at (entry S B j), r⟩ = some t →
      Reach isa (S.image rest) ⟨S.at (entry S B j), r⟩ t := fun t h => .single h
  have hcase : (∃ rn, decode (S.text (word S.inp j)) = .br rn) ∨
      decode (S.text (word S.inp j)) = .nop ∨ ∃ w, decode (S.text (word S.inp j)) = .other w := by
    have hg' : group (top (S.text (word S.inp j))) ((S.text (word S.inp j)).getLsbD 4) = .rest := hg
    unfold decode
    rw [hg']
    dsimp only
    split_ifs
    · exact .inl ⟨_, rfl⟩
    · exact .inr (.inl rfl)
    · exact .inr (.inr ⟨_, rfl⟩)
  rcases hcase with ⟨rn, hd⟩ | hd | ⟨w, hd⟩
  · simp only [step, hd, Option.some.injEq] at hs
    simp only [Movable, hd] at hm
    subst hs
    exact .inr ⟨_, hstep ⟨r.get rn, r⟩ (by simp only [step, hw, hd]), Left.refl hm⟩
  · simp only [step, hd, Option.some.injEq] at hs
    subst hs
    exact hnextf r (hstep _ (by simp only [step, hw, hd]))
  · simp only [step, hd] at hs
    simp only [Movable, hd] at hm
    cases hi : isa w r with
    | none => rw [hi] at hs; cases hs
    | some p =>
      obtain ⟨r', fl⟩ := p
      rw [hi] at hs
      cases fl with
      | next =>
        cases hs
        exact hnextf r' (hstep _ (by simp only [step, hw, hd, hi]))
      | jump a =>
        cases hs
        exact .inr ⟨_, hstep ⟨a, r'⟩ (by simp only [step, hw, hd, hi]), Left.refl (hm _ _ (.inl hi))⟩
      | call a =>
        cases hs
        refine .inr ⟨_, hstep ⟨a, r'.set 30 (S.at (entry S B j) + 4)⟩
          (by simp only [step, hw, hd, hi]), hm _ _ (.inr hi), rfl, ?_, ?_, ?_, fun n _ hn' => ?_,
          .inr ⟨j + 1, hj, by omega, ?_, ?_⟩⟩
        · simp
        · simp
        · simp
        · rw [Regs.set_x_ne hn', Regs.set_x_ne hn']
        · rw [Regs.set_x_self (by decide), word_succ]
        · rw [Regs.set_x_self (by decide), at_four, hnext]

end Moved

theorem adr_addr {j : ℕ} (hg : S.grp j = .adr) (hm : ((imm21 (S.insn j)).signExtend 64).msb = false) :
    S.addr j = word S.inp j + (imm21 (S.insn j)).signExtend 64 := by
  have h : (imm21 (S.insn j)).msb = false := by
    have := msb_signExtend_shift (k := 0) (by omega) (by omega) (imm21 (S.insn j))
    rwa [BitVec.shiftLeft_zero, hm, eq_comm] at this
  rw [addr, hg, absoluteAddr, BitVec.signExtend_eq_setWidth_of_msb_false h,
    BitVec.signExtend_eq_setWidth_of_msb_false h]
  rfl

theorem adrp_addr {j : ℕ} (hg : S.grp j = .adrp)
    (hm : ((imm21 (S.insn j)).signExtend 64 <<< 12).msb = false) :
    S.addr j = (word S.inp j &&& ~~~0xfff#64) + (imm21 (S.insn j)).signExtend 64 <<< 12 := by
  have h : (imm21 (S.insn j)).msb = false := by
    have := msb_signExtend_shift (k := 12) (by omega) (by omega) (imm21 (S.insn j))
    rwa [hm, eq_comm] at this
  rw [addr, hg, absoluteAddr, BitVec.signExtend_eq_setWidth_of_msb_false h,
    BitVec.signExtend_eq_setWidth_of_msb_false h]
  congr 1
  apply BitVec.eq_of_toNat_eq
  have hlt : (imm21 (S.insn j)).toNat < 2 ^ 20 := by
    rw [BitVec.msb_eq_decide] at h
    have := of_decide_eq_false h
    omega
  simp only [BitVec.toNat_setWidth, BitVec.toNat_shiftLeft, Nat.shiftLeft_eq]
  omega

namespace Moved

variable {B : ℕ → Block} (hB : S.Moved B) (hp : S.Placed) {rest : Text} {j : ℕ} (hj : j < S.count)

include hB hp hj

theorem sim_adr {d : Word} {fix : Option (ℕ × FixInfo)} {r : Regs ε} {s' : A64.State ε}
    (hg : S.grp j = .adr)
    (hb : B j = ⟨0, [((d <<< 3).setWidth 32 &&& 0x00ffffff) ||| (S.insn j &&& 0xff00001f)], fix⟩)
    (ha : S.Aim (S.resetCurrentIns j (S.round j)) j (S.addr j) (S.addr j &&& ~~~3#64) 5
      0x00ffffff d fix)
    (hn : S.isInFixingRange (S.addr j) = false → d.toInt.natAbs < 0xfffff)
    (hm : S.Movable isa ⟨word S.inp j, r⟩)
    (hs : step isa S.text ⟨word S.inp j, r⟩ = some s') :
    S.Arrives isa (S.image rest) B ⟨S.at (entry S B j), r⟩ s' := by
  have hdec : decode (S.text (word S.inp j)) =
      .adr (rt (S.insn j)) ((imm21 (S.insn j)).signExtend 64) := decode_adr hg
  simp only [step, hdec, Option.some.injEq] at hs
  simp only [Movable, hdec] at hm
  obtain ⟨hm1, hm2, hm3⟩ := hm
  have eaddr := adr_addr hg hm1
  rw [← eaddr] at hm2 hm3 hs
  subst hs
  cases ha with
  | back h | ahead h => rw [hm2] at h; cases h
  | out h =>
    change B j = ⟨0, [(((S.addr j - S.at (S.pos j)) <<< 3).setWidth 32 &&& 0x00ffffff) |||
      (S.insn j &&& 0xff00001f)], none⟩ at hb
    have hd : (S.addr j - S.at (S.pos j)).toInt.natAbs < 0xfffff := hn hm2
    have he : entry S B j = S.pos j := by rw [entry, hb, Nat.add_zero]
    have hnext : S.pos (j + 1) = S.pos j + 1 := by rw [hB.pos_next hj, hb, he]; rfl
    have hbody := hB.body hp rest hj (by rw [hb])
    have h45 := hB.entry_le hp hj
    rw [hb, he] at hbody
    have hw : S.image rest (S.at (S.pos j)) = _ := hbody 0 (by simp)
    have hrd : rt (S.insn j) |||
        ((imm21 (S.insn j)).signExtend 64 |>.extractLsb' 0 2).setWidth 5 <<< 3 = rt (S.insn j) := by
      rcases hm3 with h | h
      · exact h
      · have := h (S.pos j) (by omega)
        omega
    have hlow : (S.addr j - S.at (S.pos j)).extractLsb' 0 2 =
        ((imm21 (S.insn j)).signExtend 64).extractLsb' 0 2 := by
      rw [eaddr]
      have h1 := word_mod hp (S := S) j
      have h2 := at_mod hp (S := S) (S.pos j)
      generalize (imm21 (S.insn j)).signExtend 64 = y
      apply BitVec.eq_of_toNat_eq
      rw [BitVec.extractLsb'_toNat, BitVec.extractLsb'_toNat, BitVec.toNat_sub, BitVec.toNat_add]
      simp only [Nat.shiftRight_zero]
      omega
    rw [← hlow] at hrd
    have hd0 := decode_adr_word hg (hlow.trans (imm21_low _)) hd hrd
    have h0 : Reach isa (S.image rest) ⟨S.at (S.pos j), r⟩
        ⟨S.at (S.pos (j + 1)), r.set (rt (S.insn j)) (S.addr j)⟩ := by
      refine .single ?_
      simp only [step, hw]
      simp only [List.getElem_cons_zero, hd0, at_four, add_sub_self, hnext]
    rw [he, ← word_succ]
    exact (hB.fall hp hj _).of_reach h0

theorem sim_adrFar {n : ℕ} {r : Regs ε} {s' : A64.State ε} (hg : S.grp j = .adr ∨ S.grp j = .adrp)
    (hb : B j = ⟨n, [0x58000040 ||| (S.insn j &&& 0x0000001f), 0x14000003] ++ halves (S.addr j), none⟩)
    (hm : S.Movable isa ⟨word S.inp j, r⟩)
    (hs : step isa S.text ⟨word S.inp j, r⟩ = some s') :
    S.Arrives isa (S.image rest) B ⟨S.at (entry S B j), r⟩ s' := by
  have hstep : s' = ⟨word S.inp j + 4, r.set (rt (S.insn j)) (S.addr j)⟩ := by
    rcases hg with hg | hg
    · have hdec : decode (S.text (word S.inp j)) =
          .adr (rt (S.insn j)) ((imm21 (S.insn j)).signExtend 64) := decode_adr hg
      simp only [step, hdec, Option.some.injEq] at hs
      simp only [Movable, hdec] at hm
      rw [← hs, adr_addr hg hm.1]
    · have hdec : decode (S.text (word S.inp j)) =
          .adrp (rt (S.insn j)) ((imm21 (S.insn j)).signExtend 64 <<< 12) := decode_adrp hg
      simp only [step, hdec, Option.some.injEq] at hs
      simp only [Movable, hdec] at hm
      rw [← hs, adrp_addr hg hm.1]
  have hbody := hB.body hp rest hj (by rw [hb])
  have hnext : S.pos (j + 1) = entry S B j + 4 := by rw [hB.pos_next hj, hb]; rfl
  rw [hb] at hbody
  generalize entry S B j = k at *
  obtain ⟨ht, hr, himm⟩ := fieldRt (S.insn j)
  have hgl : group 0x58 ((0x58000040 ||| (S.insn j &&& 0x0000001f)).getLsbD 4) = .ldr .x := by
    generalize (0x58000040 ||| (S.insn j &&& 0x0000001f)).getLsbD 4 = b
    revert b
    decide
  have hd0 : decode (0x58000040 ||| (S.insn j &&& 0x0000001f)) =
      .ldr .x (rt (S.insn j)) (BitVec.ofNat 64 (4 * 2)) := by
    have h2 : disp (2 : BitVec 19) = BitVec.ofNat 64 (4 * 2) := by decide
    rw [decode_ldr ((congrArg (group · _) ht).trans hgl), hr, himm, h2]
  have hd1 : decode (0x14000003 : Ins) = .b false (BitVec.ofNat 64 (4 * 3)) := by decide
  have hw0 : S.image rest (S.at k) = 0x58000040 ||| (S.insn j &&& 0x0000001f) :=
    hbody 0 (by simp [halves])
  have hw1 : S.image rest (S.at (k + 1)) = 0x14000003 := hbody 1 (by simp [halves])
  rw [← hw0] at hd0
  rw [← hw1] at hd1
  have h0 : Reach isa (S.image rest) ⟨S.at k, r⟩ ⟨S.at (k + 1), r.set (rt (S.insn j)) (S.addr j)⟩ :=
    reach_ldr hd0 (hbody 2 (by simp [halves])) (hbody 3 (by simp [halves]))
  have h1 := reach_b isa (r.set (rt (S.insn j)) (S.addr j)) hd1
  rw [if_neg (by decide), ← at_add, show k + 1 + 3 = S.pos (j + 1) by omega] at h1
  rw [hstep, ← word_succ]
  exact (hB.fall hp hj _).of_reach (h0.trans h1)

/-- **One instruction**: its block does what the instruction does. -/
theorem block_sim (hrest : ∀ a, S.Literal a → rest a = S.text a) {r : Regs ε}
    {s' : A64.State ε} (hm : S.Movable isa ⟨word S.inp j, r⟩)
    (hs : step isa S.text ⟨word S.inp j, r⟩ = some s') :
    S.Arrives isa (S.image rest) B ⟨S.at (entry S B j), r⟩ s' := by
  have he := hB.emits j hj
  generalize hg : S.grp j = g at he
  generalize hb : B j = b at he
  cases he with
  | b ha hn => exact hB.sim_b hp hj hg hb ha hn hm hs
  | bFar _ ho => exact hB.sim_bFar hp hj hg hb ho hs
  | blFar _ ho => exact hB.sim_blFar hp hj hg hb ho hs
  | branch hmask | branchFar hmask => exact hB.sim_branch hp hj hmask hm hs
  | prfm => exact hB.sim_prfm hp hj hg hb hs
  | ldrFar _ => exact hB.sim_ldrFar hp hj hg rfl hb hm hs
  | ldr _ ho hd => exact hB.sim_ldr hp hj hrest hg hb ho hd hm hs
  | adr ha hn => exact hB.sim_adr hp hj hg hb ha hn hm hs
  | adrFar hg' _ _ => exact hB.sim_adrFar hp hj (hg ▸ hg') hb hm hs
  | copy => exact hB.sim_copy hp hj hg hb hm hs
  | adrp h =>
    -- a page among the moved instructions is not movable
    have hdec : decode (S.text (word S.inp j)) =
        .adrp (rt (S.insn j)) ((imm21 (S.insn j)).signExtend 64 <<< 12) := decode_adrp hg
    simp only [Movable, hdec] at hm
    rw [adrp_addr hg hm.1, hm.2] at h
    cases h
  | udf =>
    have hdec : decode (S.text (word S.inp j)) = .udf := decode_udf hg
    simp only [step, hdec] at hs
    cases hs

end Moved

/-! ## Runs -/

/-- A step of one of the moved instructions, of those that can be moved. -/
structure Inside (S : Job) (isa : Isa ε) (s s' : A64.State ε) : Prop where
  range : S.isInFixingRange s.pc = true
  movable : S.Movable isa s
  step : step isa S.text s = some s'

/-- From `t` the trampoline comes to the new place of the instruction at `s`, or
    leaves for the place outside where `s` is. -/
def Follows (S : Job) (isa : Isa ε) (T : Text) (t s : A64.State ε) : Prop :=
  (∃ i < S.count, s.pc = word S.inp i ∧ Reach isa T t ⟨(S.round S.count).dat i, s.regs⟩) ∨
    ∃ t', Reach isa T t t' ∧ S.Left s t'

theorem Arrives.follows {B : ℕ → Block} (hB : S.Moved B) {t s : A64.State ε}
    (h : S.Arrives isa T B t s) : S.Follows isa T t s := by
  rcases h with ⟨i, hi, e, hr⟩ | h
  · refine .inl ⟨i, hi, e, ?_⟩
    rw [hB.dat le_rfl hi]
    exact hr
  · exact .inr h

theorem Moved.inside_run {B : ℕ → Block} (hB : S.Moved B) (hp : S.Placed) {rest : Text}
    (hrest : ∀ a, S.Literal a → rest a = S.text a) {t s s' : A64.State ε}
    (h : S.Arrives isa (S.image rest) B t s) (hs : Relation.ReflTransGen (S.Inside isa) s s') :
    S.Arrives isa (S.image rest) B t s' := by
  induction hs with
  | refl => exact h
  | @tail u u' _ hu ih =>
    rcases ih with ⟨i, hi, e, hr⟩ | ⟨t', -, hl⟩
    · obtain ⟨-, hm, hstep⟩ := hu
      obtain ⟨pc, r⟩ := u
      cases e
      exact (hB.block_sim hp hi hrest hm hstep).of_reach hr
    · -- outside the range no moved instruction steps
      have h1 := hu.range
      rw [hl.out] at h1
      cases h1

/-- A run of the moved instructions, from the place of any of them. -/
theorem Moved.follows {B : ℕ → Block} (hB : S.Moved B) (hp : S.Placed) {rest : Text}
    (hrest : ∀ a, S.Literal a → rest a = S.text a) {i : ℕ} (hi : i ≤ S.count) {r : Regs ε}
    {s : A64.State ε} (h : Relation.ReflTransGen (S.Inside isa) ⟨word S.inp i, r⟩ s) :
    S.Follows isa (S.image rest) ⟨S.at (S.pos i), r⟩ s := by
  have h0 : S.Arrives isa (S.image rest) B ⟨S.at (S.pos i), r⟩ ⟨word S.inp i, r⟩ := by
    rcases Nat.lt_or_eq_of_le hi with h | rfl
    · exact .inl ⟨i, h, rfl, hB.nops hp h r⟩
    · exact .inr (hB.back hp r)
  exact (hB.inside_run hp hrest h0 h).follows hB

/-- **The trampoline does what the moved instructions did**: a run of them from
    instruction `i` on is one of the trampoline, from its start for the first one and
    else from the place behind instruction `i - 1`, where its calls return to. -/
theorem trampoline_simulates (hp : S.Placed) {rest : Text}
    (hrest : ∀ a, S.Literal a → rest a = S.text a) {i : ℕ} (hi : i ≤ S.count)
    {r : Regs ε} {s : A64.State ε}
    (h : Relation.ReflTransGen (S.Inside isa) ⟨word S.inp i, r⟩ s) :
    S.Follows isa (S.image rest) ⟨S.at (S.pos i), r⟩ s := by
  obtain ⟨B, hB⟩ := moved hp
  exact hB.follows hp hrest hi h

/-- `ldr x2, #32` and `cbz x1, #256`. -/
def sample : Job where
  text a := if a = 0x1000 then 0x58000102 else if a = 0x1004 then 0xb4000801 else 0x0badc0de
  inp := 0x1000
  count := 2
  outp := 0x100000

def zeros : Regs Unit := ⟨fun _ => 0, fun _ => 0, 0, ()⟩

theorem trampoline_simulates_sample :
    sample.Follows (fun _ r => some (r, .next)) (sample.image sample.text) ⟨0x100000, zeros⟩
      ⟨0x1104, zeros.set 2 0x0badc0de0badc0de⟩ := by
  refine trampoline_simulates (S := sample) (i := 0) ⟨by decide, by decide, by decide, by decide⟩
    (fun _ _ => rfl) (by decide) (.tail (.single (b := ⟨0x1004, zeros.set 2 0x0badc0de0badc0de⟩) ?_) ?_)
  · have hd : decode (sample.text 0x1000) = .ldr .x 2 0x20 := by decide
    refine ⟨by decide, ?_, rfl⟩
    show match decode (sample.text 0x1000) with | _ => _
    rw [hd]
    exact ⟨by decide, by decide, .inl rfl⟩
  · have hd : decode (sample.text 0x1004) = .branch (.zero true false 1) 0x100 := by decide
    refine ⟨by decide, ?_, rfl⟩
    show match decode (sample.text 0x1004) with | _ => _
    rw [hd]
    show (0x100 : Word).msb = false
    decide

/-! ## Branches back -/

theorem branchMask_of_decode {ins : Ins} {t : Test} {d : Word} (h : decode ins = .branch t d) :
    ∃ lmask, branchMask ins = some lmask := by
  rw [branchMask_eq]
  unfold decode at h
  generalize group (top ins) (ins.getLsbD 4) = g at *
  cases g with
  | cond | cb | tb => exact ⟨_, rfl⟩
  | rest =>
    dsimp only at h
    split_ifs at h
  | _ => cases h

variable (isa) in
/-- **A moved branch back goes astray**: it comes to an address above its target by all
    that its field can hold, outside the moved instructions. -/
theorem branch_astray (hp : S.Placed) (rest : Text) {i : ℕ} (hi : i < S.count) {t : Test} {d : Word}
    (hd : decode (S.insn i) = .branch t d) (hneg : d.msb = true) {r : Regs ε}
    (ht : t.eval r = true) :
    let a := word S.inp i + d + BitVec.ofNat 64 (2 ^ (branchWidth (S.grp i) + 2))
    S.isInFixingRange a = false ∧ ∃ r',
      Reach isa (S.image rest) ⟨(S.round S.count).dat i, r⟩ ⟨a, r'⟩ ∧ (r' = r ∨ r' = r.set 17 a) := by
  intro a
  obtain ⟨B, hB⟩ := moved hp
  obtain ⟨lmask, hmask⟩ := branchMask_of_decode hd
  obtain ⟨n, t', imm, hn, hdec, eaddr, -, hrun⟩ := hB.branch_run isa hp rest hi hmask
  rw [show decode (S.text (word S.inp i)) = .branch t d from hd] at hdec
  cases hdec
  have hwidth := branchWidth_bounds (S.grp i)
  have ea : S.addr i = a := by
    show _ = _ + _ + BitVec.ofNat 64 (2 ^ (branchWidth (S.grp i) + 2))
    rw [eaddr, disp_wrapped (by omega) (by omega) hneg, ← hn, BitVec.add_assoc]
  have hout : S.isInFixingRange (S.addr i) = false := by
    have h1 := hp.count
    have h2 := hp.fits
    have hlt := imm.isLt
    have hle : 2 ^ n ≤ 2 ^ 19 := Nat.pow_le_pow_right (by omega) (by omega)
    have hge : 2 ^ 13 ≤ 2 ^ (n - 1) := Nat.pow_le_pow_right (by omega) (by omega)
    have hlow : 2 ^ (n - 1) ≤ imm.toNat := by
      rw [msb_disp (by omega) (by omega), BitVec.msb_eq_decide] at hneg
      exact of_decide_eq_true hneg
    have e : S.addr i = S.inp + BitVec.ofNat 64 (4 * i + 4 * imm.toNat) := by
      rw [eaddr, word, BitVec.add_assoc, BitVec.ofNat_add]
      congr 2
      apply BitVec.eq_of_toNat_eq
      rw [BitVec.toNat_shiftLeft, BitVec.toNat_setWidth, Nat.shiftLeft_eq, BitVec.toNat_ofNat]
      omega
    rw [e, ← Bool.not_eq_true]
    unfold isInFixingRange
    rw [Bool.and_eq_true, BitVec.sle_iff_toInt_le, BitVec.slt_iff_toInt_lt, endp_toInt hp,
      toInt_add (by omega)]
    omega
  obtain ⟨r', hr, e⟩ := (hrun r).2.2 ht hout
  rw [ea] at hout hr e
  rw [hB.dat le_rfl hi]
  exact ⟨hout, r', hr, e⟩

/-- `cbz x0, #-256` -/
def back : Job := ⟨fun _ => 0xb4fff800, 0x1000, 1, 0x100000⟩

theorem branch_astray_back : back.isInFixingRange 0x200f00 = false ∧ ∃ r',
    Reach (fun _ r => some (r, .next)) (back.image back.text) ⟨(back.round 1).dat 0, zeros⟩
      ⟨0x200f00, r'⟩ ∧ (r' = zeros ∨ r' = zeros.set 17 0x200f00) := by
  have h := branch_astray (S := back) (fun _ r => some (r, .next)) (i := 0) (r := zeros)
    (t := .zero true false 0) (d := -0x100)
    ⟨by decide, by decide, by decide, by decide⟩ back.text (by decide) (by decide) (by decide) rfl
  have e : word back.inp 0 + -0x100 + BitVec.ofNat 64 (2 ^ (branchWidth (back.grp 0) + 2)) =
      0x200f00 := by decide
  rwa [e] at h

end Job

end Relocate

end Raphael
