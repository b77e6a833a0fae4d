/-
  What `__fix_instructions` leaves in the trampoline, and its runs.

  * `Moved B`: the rounds append the blocks `B`; `moved` is that they do.
  * `Moved.fmap`: the entries of the fix maps are the references that look ahead,
    each once.
  * `Moved.plain` and `Moved.patched`: the words of the blocks in the end.
-/
import Raphael.Relocate

namespace Raphael

open A64

namespace Relocate

namespace Job

/-- The pointers are aligned, and the moved code does not lie around the sign
    change of addresses. -/
structure Placed (S : Job) : Prop where
  count : S.count ≤ 5
  inp : S.inp.toNat % 4 = 0
  outp : S.outp.toNat % 4 = 0
  fits : S.inp.toInt + 2 ^ 33 < 2 ^ 63

variable (S : Job)

/-- The context before round `i`. -/
def round (i : ℕ) : Context := S.fixInstruction^[i] S.start

theorem round_succ (i : ℕ) : S.round (i + 1) = S.fixInstruction (S.round i) :=
  Function.iterate_succ_apply' _ _ _

/-- Where the words for instruction `i` start, with its `nop`s. -/
def pos (i : ℕ) : ℕ := (S.round i).outp

def insn (i : ℕ) : Ins := S.text (word S.inp i)

def grp (i : ℕ) : Group := group (top (S.insn i)) ((S.insn i).getLsbD 4)

/-- The address computed for the operand of instruction `i`. -/
def addr (i : ℕ) : Word := absoluteAddr (S.insn i) (word S.inp i) (S.grp i)

/-- Round `i` appends block `B i`. -/
structure Moved (B : ℕ → Block) : Prop where
  emits : ∀ i < S.count, S.Emits (S.round i) i (S.insn i) (S.addr i) (S.grp i) (B i)
  place : ∀ i < S.count, S.round (i + 1) = S.place i (B i) (S.round i)

variable {S}

theorem getRefInsIndex_word {i : ℕ} (h : i < 2 ^ 32) : S.getRefInsIndex (word S.inp i) = i := by
  unfold getRefInsIndex word
  have e : S.inp + BitVec.ofNat 64 (4 * i) - S.inp = BitVec.ofNat 64 (4 * i) := by
    rw [BitVec.add_comm, BitVec.add_sub_cancel]
  rw [e, BitVec.toNat_ofNat]
  omega

theorem word_succ (a : Word) (i : ℕ) : word a (i + 1) = word a i + 4 := by
  rw [word, word, Nat.mul_add, BitVec.ofNat_add, ← BitVec.add_assoc]
  rfl

/-! ## What a placed block changes -/

theorem place_inp (i : ℕ) (b : Block) (c : Context) : (S.place i b c).inp = c.inp + 4 := by
  obtain ⟨n, ws, fix⟩ := b
  cases fix <;> rfl

theorem place_outp (i : ℕ) (b : Block) (c : Context) :
    (S.place i b c).outp = c.outp + b.nops + b.body.length := by
  have e : (S.place i b c).outp = c.outp + (List.replicate b.nops nop ++ b.body).length := by
    obtain ⟨n, ws, fix⟩ := b
    cases fix <;> rfl
  rw [e, List.length_append, List.length_replicate, Nat.add_assoc]

theorem place_dat (i : ℕ) (b : Block) (c : Context) :
    (S.place i b c).dat = Function.update c.dat i (S.at (c.outp + b.nops)) := rfl

theorem place_fmap (i : ℕ) (b : Block) (c : Context) :
    (S.place i b c).fmap = Function.update (c.insert b.fix).fmap i [] := by
  obtain ⟨n, ws, fix⟩ := b
  cases fix <;> rfl

theorem place_mem (i : ℕ) (b : Block) (c : Context) :
    (S.place i b c).mem = ((c.insert b.fix).fmap i).foldl
      (fun m f => S.patch i m f (Function.update c.dat i (S.at (c.outp + b.nops))))
      (write c.outp (List.replicate b.nops nop ++ b.body) c.mem) := by
  obtain ⟨n, ws, fix⟩ := b
  cases fix <;> rfl

/-! ## The blocks -/

theorem Emits.fix {c : Context} {i : ℕ} {ins : Ins} {a : Word} {g : Group} {b : Block}
    (h : S.Emits c i ins a g b) {r : ℕ} {f : FixInfo} (hf : b.fix = some (r, f)) :
    i < r ∧ f.bp = c.outp ∧ b.nops = 0 ∧ b.body.length = 1 := by
  have key : ∀ {a ref ls ad d fix}, S.Aim (S.resetCurrentIns i c) i a ref ls ad d fix →
      fix = some (r, f) → i < r ∧ f.bp = c.outp := by
    intro a ref ls ad d fix h e
    cases h with
    | out | back => cases e
    | ahead h hr => cases e; exact ⟨hr, rfl⟩
  cases h with
  | b ha | branch _ ha | adr ha =>
    obtain ⟨h1, h2⟩ := key ha hf
    exact ⟨h1, h2, rfl, rfl⟩
  | udf _ _ h => rw [h] at hf; cases hf
  | _ => cases hf

/-- No block is longer than nine words. -/
theorem Emits.length {c : Context} {i : ℕ} {ins : Ins} {a : Word} {g : Group} {b : Block}
    (h : S.Emits c i ins a g b) : b.nops + b.body.length ≤ 9 := by
  cases h with
  | b | branch | prfm | adr | adrp | copy => simp
  | bFar hn | blFar hn | branchFar _ hn | adrFar _ hn => simp [farJump, halves]; omega
  | @ldrFar k n hn =>
    have : ((litAlign k).toNat + 1) / 4 ≤ 4 := by cases k <;> decide
    simp only [List.length_append, List.length_cons, List.length_nil, List.length_map,
      List.length_range]
    omega
  | ldr hn => simp only [List.length_cons, List.length_nil]; omega
  | udf hn hb => omega

theorem mem_insert {c : Context} {fix : Option (ℕ × FixInfo)} {r : ℕ} {f : FixInfo}
    (h : f ∈ (c.insert fix).fmap r) : f ∈ c.fmap r ∨ fix = some (r, f) := by
  cases fix with
  | none => exact .inl h
  | some p =>
    obtain ⟨r', f'⟩ := p
    simp only [Context.insert, Context.insertFixMap] at h
    split at h
    · by_cases hr : r = r'
      · subst hr
        rw [Function.update_self, List.mem_append, List.mem_singleton] at h
        exact h.imp_right fun e => by rw [e]
      · rw [Function.update_of_ne hr] at h
        exact .inl h
    · exact .inl h

/-- The rounds append blocks. -/
theorem moved (hp : S.Placed) : ∃ B, S.Moved B := by
  have step : ∀ i < S.count, (S.round i).inp = word S.inp i →
      (∀ r, ∀ f ∈ (S.round i).fmap r, f.bp < (S.round i).outp) →
      ∃ b, S.Emits (S.round i) i (S.insn i) (S.addr i) (S.grp i) b ∧
        S.round (i + 1) = S.place i b (S.round i) := by
    intro i hi e hf
    obtain ⟨b, hb, h⟩ := S.fix_cases hp.outp (S.round i) (hf _)
    have hi' := hp.count
    rw [e, getRefInsIndex_word (by omega)] at hb h
    exact ⟨b, hb, (S.round_succ i).trans h⟩
  have key : ∀ i ≤ S.count, (S.round i).inp = word S.inp i ∧
      ∀ r, ∀ f ∈ (S.round i).fmap r, f.bp < (S.round i).outp := by
    intro i
    induction i with
    | zero =>
      intro _
      refine ⟨?_, fun r f hf => by cases hf⟩
      show S.inp = S.inp + 0#64
      rw [BitVec.add_zero]
    | succ i ih =>
      intro hi
      obtain ⟨e, hf⟩ := ih (by omega)
      obtain ⟨b, hb, h⟩ := step i (by omega) e hf
      rw [h]
      refine ⟨by rw [place_inp, e, word_succ], fun r f hr => ?_⟩
      rw [place_outp]
      rw [place_fmap] at hr
      by_cases hri : r = i
      · rw [hri, Function.update_self] at hr
        cases hr
      · rw [Function.update_of_ne hri] at hr
        rcases mem_insert hr with h' | h'
        · have := hf r f h'
          omega
        · obtain ⟨-, h1, -, h2⟩ := Emits.fix hb h'
          omega
  have hex : ∀ i, ∃ b, i < S.count → S.Emits (S.round i) i (S.insn i) (S.addr i) (S.grp i) b ∧
      S.round (i + 1) = S.place i b (S.round i) := by
    intro i
    by_cases hi : i < S.count
    · obtain ⟨b, hb⟩ := step i hi (key i hi.le).1 (key i hi.le).2
      exact ⟨b, fun _ => hb⟩
    · exact ⟨⟨0, [], none⟩, fun h => absurd h hi⟩
  choose B hB using hex
  exact ⟨B, fun i hi => (hB i hi).1, fun i hi => (hB i hi).2⟩

theorem foldl_patch_ne {i : ℕ} {dat : ℕ → Word} {L : List FixInfo} {mem : ℕ → Ins} {k : ℕ}
    (h : ∀ f ∈ L, f.bp ≠ k) : L.foldl (fun m f => S.patch i m f dat) mem k = mem k := by
  induction L generalizing mem with
  | nil => rfl
  | cons f L ih =>
    rw [List.foldl_cons, ih fun g hg => h g (List.mem_cons_of_mem f hg), patch,
      Function.update_of_ne (h f List.mem_cons_self).symm]

theorem foldl_patch_mem {i : ℕ} {dat : ℕ → Word} {L : List FixInfo} {mem : ℕ → Ins} {f : FixInfo}
    (hf : f ∈ L) (hn : (L.map FixInfo.bp).Nodup) :
    L.foldl (fun m f => S.patch i m f dat) mem f.bp = S.patch i mem f dat f.bp := by
  induction L generalizing mem with
  | nil => cases hf
  | cons g L ih =>
    obtain ⟨hg, hn⟩ := List.nodup_cons.1 hn
    rw [List.foldl_cons]
    rcases List.mem_cons.1 hf with rfl | hf
    · refine foldl_patch_ne fun f' hf' e => hg ?_
      rw [← e]
      exact List.mem_map_of_mem hf'
    · have hne : f.bp ≠ g.bp := fun e => hg (e ▸ List.mem_map_of_mem hf)
      rw [ih hf hn]
      simp only [patch, Function.update_self, Function.update_of_ne hne]

namespace Moved

variable {B : ℕ → Block} (hB : S.Moved B)

include hB

theorem pos_succ {i : ℕ} (h : i < S.count) :
    S.pos (i + 1) = S.pos i + (B i).nops + (B i).body.length := by
  rw [pos, hB.place i h, place_outp]
  rfl

theorem pos_mono {i j : ℕ} (h : i ≤ j) (hj : j ≤ S.count) : S.pos i ≤ S.pos j := by
  induction j, h using Nat.le_induction with
  | base => exact le_rfl
  | succ j _ ih =>
    have := hB.pos_succ (i := j) (by omega)
    have := ih (by omega)
    omega

/-- **The trampoline fits its slot**: its words and the jump behind them. -/
theorem pos_le {i : ℕ} (h : i ≤ S.count) : S.pos i ≤ 9 * i := by
  induction i with
  | zero => exact Nat.le_of_eq rfl
  | succ i ih =>
    have := hB.pos_succ (i := i) (by omega)
    have := (hB.emits i (by omega)).length
    have := ih (by omega)
    omega

/-- The word that instruction `i` is at in the trampoline. -/
theorem dat {i k : ℕ} (hi : i ≤ S.count) (hk : k < i) :
    (S.round i).dat k = S.at (S.pos k + (B k).nops) := by
  induction i, hk using Nat.le_induction with
  | base => rw [hB.place k (by omega), place_dat, Function.update_self]; rfl
  | succ i hk ih =>
    rw [hB.place i (by omega), place_dat, Function.update_of_ne (by omega), ih (by omega)]

/-- **The fix maps** hold the references that look ahead, each once. -/
theorem fmap (hp : S.Placed) {i : ℕ} (hi : i ≤ S.count) :
    ∀ r, ((S.round i).fmap r).length ≤ i ∧
      (((S.round i).fmap r).map FixInfo.bp).Nodup ∧
      (∀ f ∈ (S.round i).fmap r, f.bp < S.pos i) ∧
      (i ≤ r → ∀ f, f ∈ (S.round i).fmap r ↔ ∃ j < i, (B j).fix = some (r, f)) := by
  induction i with
  | zero =>
    intro r
    have e : (S.round 0).fmap r = [] := rfl
    rw [e]
    exact ⟨le_rfl, List.nodup_nil, by simp, fun _ f => by simp⟩
  | succ i ih =>
    intro r
    have hpos := hB.pos_succ (i := i) (by omega)
    have hcount := hp.count
    obtain ⟨hl, hn, hb, hm⟩ := ih (by omega) r
    rw [hB.place i (by omega), place_fmap]
    by_cases hri : r = i
    · rw [hri, Function.update_self]
      exact ⟨by simp, List.nodup_nil, by simp, fun h => by omega⟩
    rw [Function.update_of_ne hri]
    cases hfix : (B i).fix with
    | none =>
      refine ⟨by simpa [Context.insert] using Nat.le_succ_of_le hl, hn,
        fun f hf => by have := hb f hf; omega, fun h f => ?_⟩
      rw [Context.insert, hm (by omega) f]
      constructor
      · rintro ⟨j, hj, e⟩
        exact ⟨j, by omega, e⟩
      · rintro ⟨j, hj, e⟩
        refine ⟨j, lt_of_le_of_ne (by omega) fun h => ?_, e⟩
        rw [h, hfix] at e
        cases e
    | some p =>
      obtain ⟨r', f'⟩ := p
      obtain ⟨hr', hbp, h0, h1⟩ := Emits.fix (hB.emits i (by omega)) hfix
      have hroom : ((S.round i).fmap r').length < 10 := by
        have := (ih (by omega) r').1
        omega
      simp only [Context.insert, Context.insertFixMap, hroom, if_true]
      by_cases hr : r = r'
      · subst hr
        rw [Function.update_self]
        refine ⟨by simp [hl], ?_, ?_, fun h f => ?_⟩
        · rw [List.map_append, List.map_singleton, List.nodup_append]
          refine ⟨hn, List.nodup_singleton _, fun a ha b hb' => ?_⟩
          obtain ⟨f, hf, rfl⟩ := List.mem_map.1 ha
          rw [List.mem_singleton.1 hb', hbp]
          exact (hb f hf).ne
        · intro f hf
          rcases List.mem_append.1 hf with hf | hf
          · have := hb f hf
            omega
          · rw [List.mem_singleton.1 hf, hbp]
            have : (S.round i).outp = S.pos i := rfl
            omega
        · rw [List.mem_append, List.mem_singleton, hm (by omega) f]
          constructor
          · rintro (⟨j, hj, e⟩ | rfl)
            · exact ⟨j, by omega, e⟩
            · exact ⟨i, by omega, hfix⟩
          · rintro ⟨j, hj, e⟩
            rcases Nat.lt_succ_iff_lt_or_eq.1 hj with hj | rfl
            · exact .inl ⟨j, hj, e⟩
            · rw [hfix] at e
              cases e
              exact .inr rfl
      · rw [Function.update_of_ne hr]
        refine ⟨by omega, hn, fun f hf => by have := hb f hf; omega, fun h f => ?_⟩
        rw [hm (by omega) f]
        constructor
        · rintro ⟨j, hj, e⟩
          exact ⟨j, by omega, e⟩
        · rintro ⟨j, hj, e⟩
          refine ⟨j, lt_of_le_of_ne (by omega) fun h => ?_, e⟩
          rw [h, hfix] at e
          cases e
          exact hr rfl

/-- A round changes the words before it at the places that refer to it. -/
theorem round_mem (hp : S.Placed) {i k : ℕ} (hi : i < S.count) (hk : k < S.pos i) :
    ((∀ j < i, ∀ f, (B j).fix = some (i, f) → f.bp ≠ k) →
      (S.round (i + 1)).mem k = (S.round i).mem k) ∧
    ∀ j < i, ∀ f, (B j).fix = some (i, f) → f.bp = k →
      (S.round (i + 1)).mem k = (S.round i).mem k |||
        (((S.at (S.pos i + (B i).nops) - S.at k).setWidth 32).sshiftRight 2 <<< f.ls &&& f.ad) := by
  obtain ⟨-, hn, -, hm⟩ := hB.fmap hp hi.le i
  have hins : ((S.round i).insert (B i).fix).fmap i = (S.round i).fmap i := by
    cases hfix : (B i).fix with
    | none => rfl
    | some p =>
      obtain ⟨r, f⟩ := p
      have hr := (Emits.fix (hB.emits i hi) hfix).1
      simp only [Context.insert, Context.insertFixMap]
      split
      · rw [Function.update_of_ne (by omega)]
      · rfl
  have hk' : k < (S.round i).outp := hk
  rw [hB.place i hi, place_mem, hins]
  constructor
  · intro h
    rw [foldl_patch_ne, write_lt hk']
    intro f hf
    obtain ⟨j, hj, e⟩ := (hm le_rfl f).1 hf
    exact h j hj f e
  · rintro j hj f e rfl
    rw [foldl_patch_mem ((hm le_rfl f).2 ⟨j, hj, e⟩) hn]
    simp only [patch, Function.update_self, write_lt hk']
    rfl

/-- The words of a block without references ahead stay. -/
theorem plain (hp : S.Placed) {i j t : ℕ} (hi : i ≤ S.count) (hj : j < i) (hf : (B j).fix = none)
    (ht : t < (List.replicate (B j).nops nop ++ (B j).body).length) :
    (S.round i).mem (S.pos j + t) = (List.replicate (B j).nops nop ++ (B j).body)[t] := by
  have hpos := hB.pos_succ (i := j) (by omega)
  rw [List.length_append, List.length_replicate] at ht
  induction i, hj using Nat.le_induction with
  | base =>
    obtain ⟨-, -, hb, -⟩ := hB.fmap hp (i := j) (by omega) j
    rw [hB.place j (by omega), place_mem, hf, foldl_patch_ne]
    · exact write_at (by rwa [List.length_append, List.length_replicate])
    · intro f hfm
      have := hb f hfm
      omega
  | succ i hij ih =>
    have hmono := hB.pos_mono (i := j + 1) (j := i) hij (by omega)
    rw [((hB.round_mem hp (k := S.pos j + t) (i := i) (by omega) (by omega)).1 ?_), ih (by omega)]
    intro j' hj' f hf' e
    obtain ⟨-, hbp, h0, h1⟩ := Emits.fix (hB.emits j' (by omega)) hf'
    have hpos' := hB.pos_succ (i := j') (by omega)
    have hbp' : f.bp = S.pos j' := hbp
    rcases lt_trichotomy j j' with h | rfl | h
    · have := hB.pos_mono (i := j + 1) (j := j') h (by omega)
      omega
    · rw [hf] at hf'
      cases hf'
    · have := hB.pos_mono (i := j' + 1) (j := j) h (by omega)
      omega

/-- A word that refers ahead is patched in the round of its target. -/
theorem patched (hp : S.Placed) {i j r : ℕ} {f : FixInfo} {w : Ins} (hi : i ≤ S.count) (hj : j < i)
    (hf : (B j).fix = some (r, f)) (hw : (B j).body = [w]) :
    (S.round i).mem (S.pos j) = if i ≤ r then w else w |||
      (((S.at (S.pos r + (B r).nops) - S.at (S.pos j)).setWidth 32).sshiftRight 2 <<< f.ls
        &&& f.ad) := by
  have hpos := hB.pos_succ (i := j) (by omega)
  obtain ⟨hr, hbp, h0, h1⟩ := Emits.fix (hB.emits j (by omega)) hf
  have hbp' : f.bp = S.pos j := hbp
  induction i, hj using Nat.le_induction with
  | base =>
    obtain ⟨-, -, hb, -⟩ := hB.fmap hp (i := j) (by omega) j
    rw [if_pos (by omega), hB.place j (by omega), place_mem, h0, hw, foldl_patch_ne]
    · exact write_at (i := 0) (by simp)
    · intro g hg
      rcases mem_insert hg with hg | hg
      · have := hb g hg
        omega
      · rw [hf] at hg
        cases hg
        omega
  | succ i hij ih =>
    have hmono := hB.pos_mono (i := j + 1) (j := i) hij (by omega)
    have hm := hB.round_mem hp (k := S.pos j) (i := i) (by omega) (by omega)
    by_cases hri : r = i
    · subst hri
      rw [hm.2 j (by omega) f hf hbp', ih (by omega), if_pos le_rfl, if_neg (by omega)]
    · rw [hm.1, ih (by omega)]
      · by_cases h : i ≤ r
        · rw [if_pos h, if_pos (by omega)]
        · rw [if_neg h, if_neg (by omega)]
      · intro j' hj' g hg e
        obtain ⟨-, hbp₁, h0₁, h1₁⟩ := Emits.fix (hB.emits j' (by omega)) hg
        have hpos₁ := hB.pos_succ (i := j') (by omega)
        have hbp₁' : g.bp = S.pos j' := hbp₁
        rcases lt_trichotomy j j' with h | rfl | h
        · have := hB.pos_mono (i := j + 1) (j := j') h (by omega)
          omega
        · rw [hf] at hg
          cases hg
          exact hri rfl
        · have := hB.pos_mono (i := j' + 1) (j := j) h (by omega)
          omega

end Moved

end Job

end Relocate

end Raphael
