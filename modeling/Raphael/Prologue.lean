/-
  What the unwinding instructions are for: prologues of functions and their inverse.

  * `Save` are the steps of a prologue, `Done` says what it leaves in the registers and
    on the stack.
  * `undo` are the effects of the unwinding instructions that belong to a prologue.
  * `undo_spec`: they lead from the registers inside the body back to those at the entry,
    as far as these are saved or kept.
-/
import Raphael.Ehabi
import Mathlib.Data.Finset.Basic

namespace Raphael

namespace Unwind32

/-- The steps of a prologue. -/
inductive Save
  /-- `push`, in ascending order of the registers -/
  | push (rs : List Reg)
  /-- `sub sp, sp, #n`, also for the registers that are not in `gregs` -/
  | sub (n : Word32)
  /-- `mov f, sp` -/
  | setFp (f : Reg)
  deriving DecidableEq

/-- The prologue `p` leads from the registers `r` to `r'`; the stack still has what it
    pushed, and a frame pointer is no small number. -/
def Done (m : Memory) : List Save → Gregs → Gregs → Prop
  | [], r, r' => r' = r
  | .push rs :: p, r, r' =>
    let sp := r.sp - BitVec.ofNat 32 (4 * rs.length)
    (∀ i (hi : i < rs.length),
        m.tryGetWordStack (sp + BitVec.ofNat 32 (4 * i)) = .ok (some (r rs[i]))) ∧
      Done m p (r.set 13 sp) r'
  | .sub n :: p, r, r' => Done m p (r.set 13 (r.sp - n)) r'
  | .setFp f :: p, r, r' => r.sp &&& 0xffff0000 ≠ 0 ∧ Done m p (r.set f r.sp) r'

/-- The effect that takes back a step. -/
def Save.inverse : Save → Effect
  | .push rs => .pop rs
  | .sub n => .add n
  | .setFp f => .set f

def undo (p : List Save) : List Effect := (p.map Save.inverse).reverse

/-- The registers that are known at the entry, when the body keeps the registers `K`. -/
def known : List Save → Finset Reg → Finset Reg
  | [], K => K
  | .push rs :: p, K => known p K ∪ rs.toFinset
  | .sub _ :: p, K => known p K
  | .setFp f :: p, K => insert 13 ((known p K).erase f)

/-- The prologue can be taken back from what the body keeps. -/
def Sound : List Save → Finset Reg → Prop
  | [], _ => True
  | .push rs :: p, K => 13 ∈ known p K ∧ rs.Nodup ∧ 13 ∉ rs ∧ 15 ∉ rs ∧ Sound p K
  | .sub _ :: p, K => Sound p K
  | .setFp f :: p, K => f ∈ known p K ∧ f ≠ 13 ∧ Sound p K

/-- `u` has the registers `K` of `r`. -/
def Agree (K : Finset Reg) (u r : Gregs) : Prop := ∀ i ∈ K, u i = r i

instance (K : Finset Reg) (u r : Gregs) : Decidable (Agree K u r) :=
  inferInstanceAs (Decidable (∀ i ∈ K, u i = r i))

theorem Agree.mono {K L : Finset Reg} {u r : Gregs} (h : Agree K u r) (hs : L ⊆ K) :
    Agree L u r := fun i hi => h i (hs hi)

theorem Agree.trans {K : Finset Reg} {u v r : Gregs} (h : Agree K u v) (h' : Agree K v r) :
    Agree K u r := fun i hi => (h i hi).trans (h' i hi)

@[simp] theorem Gregs.set_self (r : Gregs) (i : Reg) (v : Word32) : r.set i v i = v :=
  Function.update_self ..

theorem Gregs.set_of_ne (r : Gregs) {i j : Reg} (v : Word32) (h : j ≠ i) : r.set i v j = r j :=
  Function.update_of_ne h ..

variable {m : Memory}

/-- A pop of words that can be read gives the registers their words. -/
theorem popRegs_eq {rs : List Reg} (hn : rs.Nodup) {sp : Word32} {r v : Gregs}
    (h : ∀ i (hi : i < rs.length),
      m.tryGetWordStack (sp + BitVec.ofNat 32 (4 * i)) = .ok (some (v rs[i]))) :
    ∃ r', popRegs m rs sp r = .ok (true, r') ∧ (∀ i ∈ rs, r' i = v i) ∧ ∀ i ∉ rs, r' i = r i := by
  induction rs generalizing sp r with
  | nil => exact ⟨r, rfl, nofun, fun _ _ => rfl⟩
  | cons j rs ih =>
    obtain ⟨hj, hn⟩ := List.nodup_cons.1 hn
    have h0 : m.tryGetWordStack sp = .ok (some (v j)) := by
      have := h 0 (by simp)
      rwa [Nat.mul_zero, show sp + BitVec.ofNat 32 0 = sp from BitVec.add_zero _] at this
    obtain ⟨r', hr, hin, hout⟩ := ih hn (r := r.set j (v j)) fun i hi => by
      have := h (i + 1) (by simpa using hi)
      rw [show 4 * (i + 1) = 4 + 4 * i by omega, BitVec.ofNat_add, ← BitVec.add_assoc] at this
      exact this
    refine ⟨r', by rw [popRegs, h0, ok_bind]; exact hr, fun i hi => ?_, fun i hi => ?_⟩
    · by_cases hi' : i ∈ rs
      · exact hin i hi'
      · obtain rfl := (List.mem_cons.1 hi).resolve_right hi'
        rw [hout i hi', Gregs.set_self]
    · rw [List.mem_cons, not_or] at hi
      rw [hout i hi.2, Gregs.set_of_ne _ _ hi.1]

section step
variable {p : List Save} {K : Finset Reg} {r u : Gregs} (rest : List Effect)

theorem undo_push {rs : List Reg} (h13 : 13 ∈ known p K) (hn : rs.Nodup) (hsp : 13 ∉ rs)
    (hpc : 15 ∉ rs)
    (hw : ∀ i (hi : i < rs.length),
      m.tryGetWordStack (r.sp - BitVec.ofNat 32 (4 * rs.length) + BitVec.ofNat 32 (4 * i)) =
        .ok (some (r rs[i])))
    (ha : Agree (known p K) u (r.set 13 (r.sp - BitVec.ofNat 32 (4 * rs.length)))) :
    ∃ u', Effect.runs m vspOf (.pop rs :: rest) false u = Effect.runs m vspOf rest false u' ∧
      Agree (known (.push rs :: p) K) u' r := by
  have husp : u.sp = r.sp - BitVec.ofNat 32 (4 * rs.length) := by
    rw [Gregs.sp, ha 13 h13, Gregs.set_self]
  rw [← husp] at hw
  obtain ⟨u', hpop, hin, hout⟩ := popRegs_eq hn (r := u) hw
  refine ⟨afterPop rs u.sp u', ?_, ?_⟩
  · rw [Effect.runs, hpop, ok_bind]
    simp only [hpc, decide_false, Bool.or_false]
  · rw [afterPop, if_neg hsp]
    intro i hi
    by_cases hi13 : i = 13
    · subst hi13
      rw [Gregs.set_self, husp, BitVec.sub_add_cancel]
      rfl
    · rw [Gregs.set_of_ne _ _ hi13]
      by_cases hir : i ∈ rs
      · exact hin i hir
      · have hk : i ∈ known p K := by
          rw [known, Finset.mem_union, List.mem_toFinset] at hi
          exact hi.resolve_right hir
        rw [hout i hir, ha i hk, Gregs.set_of_ne _ _ hi13]

theorem undo_sub {n : Word32} (ha : Agree (known p K) u (r.set 13 (r.sp - n))) :
    ∃ u', Effect.runs m vspOf (.add n :: rest) false u = Effect.runs m vspOf rest false u' ∧
      Agree (known (.sub n :: p) K) u' r := by
  refine ⟨u.set 13 (u.sp + n), rfl, fun i hi => ?_⟩
  by_cases hi13 : i = 13
  · subst hi13
    rw [Gregs.set_self, Gregs.sp, ha 13 hi, Gregs.set_self, BitVec.sub_add_cancel]
    rfl
  · rw [Gregs.set_of_ne _ _ hi13, ha i hi, Gregs.set_of_ne _ _ hi13]

theorem undo_setFp {f : Reg} (hf : f ∈ known p K) (hhigh : r.sp &&& 0xffff0000 ≠ 0)
    (ha : Agree (known p K) u (r.set f r.sp)) :
    ∃ u', Effect.runs m vspOf (.set f :: rest) false u = Effect.runs m vspOf rest false u' ∧
      Agree (known (.setFp f :: p) K) u' r := by
  have huf : u f = r.sp := by rw [ha f hf, Gregs.set_self]
  refine ⟨u.set 13 r.sp, ?_, fun i hi => ?_⟩
  · rw [Effect.runs, vspOf, if_neg, huf]
    rintro ⟨rfl, h7⟩
    rw [huf] at h7
    exact hhigh h7
  · by_cases hi13 : i = 13
    · subst hi13
      rw [Gregs.set_self]
      rfl
    · have hi' := Finset.mem_of_mem_insert_of_ne hi hi13
      rw [Gregs.set_of_ne _ _ hi13, ha i (Finset.mem_of_mem_erase hi'),
        Gregs.set_of_ne _ _ (Finset.ne_of_mem_erase hi')]

end step

/-- **A prologue is taken back**: from registers that agree with those behind it, its
    inverse leads to registers that agree with those before it. -/
theorem undo_spec {p : List Save} {K : Finset Reg} (hs : Sound p K) {r r' b : Gregs}
    (hd : Done m p r r') (hb : Agree K b r') (rest : List Effect) :
    ∃ u, Effect.runs m vspOf (undo p ++ rest) false b = Effect.runs m vspOf rest false u ∧
      Agree (known p K) u r := by
  induction p generalizing r rest with
  | nil =>
    cases hd
    exact ⟨b, rfl, hb⟩
  | cons x p ih =>
    have hundo : undo (x :: p) ++ rest = undo p ++ (x.inverse :: rest) := by
      rw [undo, List.map_cons, List.reverse_cons, List.append_assoc, List.singleton_append]
      rfl
    rw [hundo]
    cases x with
    | push rs =>
      obtain ⟨h13, hn, hsp, hpc, hs⟩ := hs
      obtain ⟨hw, hd⟩ := hd
      obtain ⟨u, hu, ha⟩ := ih hs hd (.pop rs :: rest)
      obtain ⟨u', hu', ha'⟩ := undo_push rest h13 hn hsp hpc hw ha
      exact ⟨u', hu.trans hu', ha'⟩
    | sub n =>
      obtain ⟨u, hu, ha⟩ := ih hs hd (.add n :: rest)
      obtain ⟨u', hu', ha'⟩ := undo_sub (m := m) rest ha
      exact ⟨u', hu.trans hu', ha'⟩
    | setFp f =>
      obtain ⟨hf, -, hs⟩ := hs
      obtain ⟨hhigh, hd⟩ := hd
      obtain ⟨u, hu, ha⟩ := ih hs hd (.set f :: rest)
      obtain ⟨u', hu', ha'⟩ := undo_setFp (m := m) rest hf hhigh ha
      exact ⟨u', hu.trans hu', ha'⟩

end Unwind32

end Raphael
