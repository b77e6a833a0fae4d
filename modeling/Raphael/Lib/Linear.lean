/-
  Linearizability, shown by effect points.

  An object of a state `σ` has operations `Op` with outcomes `Out`: after an
  operation with an outcome that is possible in `s` its state is `next s op out`.
  A history lists the calls, their effects and their returns, the latest first.

  * `Linearization`: the sequence of the calls that took effect is one that the
    object can go through alone; it has every call that returned, with the
    outcome it returned, and a call that returned before another one was made
    stands before it.
  * `Run`: every effect lies between the call and the return, and is possible
    where it stands.
  * `Run.linearization`: such a history is linearized by its effects.
-/
import Mathlib.Data.List.Nodup

namespace Linear

variable {ι Op Out σ : Type*}

inductive Moment (ι Op Out : Type*)
  | call (i : ι) (op : Op)
  | effect (i : ι) (op : Op) (out : Out)
  | ret (i : ι) (out : Out)

/-- The call a moment belongs to. -/
def Moment.id : Moment ι Op Out → ι
  | call i _ | effect i _ _ | ret i _ => i

/-- The calls that took effect, the latest first. -/
def effects : List (Moment ι Op Out) → List (ι × Op × Out)
  | [] => []
  | .effect i op out :: h => (i, op, out) :: effects h
  | .call .. :: h | .ret .. :: h => effects h

theorem mem_effects {i : ι} {op : Op} {out : Out} {h : List (Moment ι Op Out)} :
    (i, op, out) ∈ effects h ↔ .effect i op out ∈ h := by
  induction h with
  | nil => simp [effects]
  | cons e h ih => cases e <;> simp [effects, ih]

/-- The state after the calls `l`, made one after another. -/
def replay (next : σ → Op → Out → Option σ) (s₀ : σ) : List (ι × Op × Out) → Option σ
  | [] => some s₀
  | x :: l => (replay next s₀ l).bind fun s => next s x.2.1 x.2.2

/-- The calls `l`, made one after another, account for the history `h` and lead
    to `s`. -/
structure Linearization (next : σ → Op → Out → Option σ) (s₀ : σ) (h : List (Moment ι Op Out))
    (l : List (ι × Op × Out)) (s : σ) : Prop where
  legal : replay next s₀ l = some s
  nodup : (l.map Prod.fst).Nodup
  called : ∀ i op out, (i, op, out) ∈ l → .call i op ∈ h
  returned : ∀ i out, .ret i out ∈ h → ∃ op, .call i op ∈ h ∧ (i, op, out) ∈ l
  order : ∀ i j op out, [.call j op, .ret i out].Sublist h → j ∈ l.map Prod.fst →
    [j, i].Sublist (l.map Prod.fst)

section
variable (next : σ → Op → Out → Option σ) (s₀ : σ)

/-- The histories whose effects lie between call and return. -/
inductive Run : List (Moment ι Op Out) → σ → Prop
  | nil : Run [] s₀
  | call {h s i op} : Run h s → (∀ e ∈ h, e.id ≠ i) → Run (.call i op :: h) s
  | effect {h s s' i op out} : Run h s → .call i op ∈ h →
      (∀ op out, .effect i op out ∉ h) → next s op out = some s' →
      Run (.effect i op out :: h) s'
  | ret {h s i op out} : Run h s → .effect i op out ∈ h → Run (.ret i out :: h) s

end

namespace Run
variable {next : σ → Op → Out → Option σ} {s₀ s : σ} {h : List (Moment ι Op Out)}

theorem legal (r : Run next s₀ h s) : replay next s₀ (effects h) = some s := by
  induction r with
  | nil => rfl
  | call _ _ ih => exact ih
  | effect _ _ _ hn ih => simpa [effects, replay, ih] using hn
  | ret _ _ ih => exact ih

theorem notMem_ids {i : ι} (hi : ∀ op out, .effect i op out ∉ h) :
    i ∉ (effects h).map Prod.fst := by
  intro hm
  obtain ⟨⟨j, op, out⟩, hx, rfl⟩ := List.mem_map.1 hm
  exact hi op out (mem_effects.1 hx)

theorem nodup (r : Run next s₀ h s) : ((effects h).map Prod.fst).Nodup := by
  induction r with
  | nil => exact List.nodup_nil
  | call _ _ ih => exact ih
  | effect _ _ hi _ ih => exact List.nodup_cons.2 ⟨notMem_ids hi, ih⟩
  | ret _ _ ih => exact ih

theorem called (r : Run next s₀ h s) {i : ι} {op : Op} {out : Out}
    (hm : .effect i op out ∈ h) : .call i op ∈ h := by
  induction r with
  | nil => cases hm
  | call _ _ ih =>
    rcases List.mem_cons.1 hm with e | hm
    · cases e
    · exact List.mem_cons_of_mem _ (ih hm)
  | effect _ hc _ _ ih =>
    rcases List.mem_cons.1 hm with e | hm
    · cases e
      exact List.mem_cons_of_mem _ hc
    · exact List.mem_cons_of_mem _ (ih hm)
  | ret _ _ ih =>
    rcases List.mem_cons.1 hm with e | hm
    · cases e
    · exact List.mem_cons_of_mem _ (ih hm)

theorem returned (r : Run next s₀ h s) {i : ι} {out : Out} (hm : .ret i out ∈ h) :
    ∃ op, .effect i op out ∈ h := by
  induction r with
  | nil => cases hm
  | call _ _ ih | effect _ _ _ _ ih =>
    rcases List.mem_cons.1 hm with e | hm
    · cases e
    · obtain ⟨op, ho⟩ := ih hm
      exact ⟨op, List.mem_cons_of_mem _ ho⟩
  | ret _ he ih =>
    rcases List.mem_cons.1 hm with e | hm
    · cases e
      exact ⟨_, List.mem_cons_of_mem _ he⟩
    · obtain ⟨op, ho⟩ := ih hm
      exact ⟨op, List.mem_cons_of_mem _ ho⟩

/-- The effects are in the order of the calls that do not overlap. -/
theorem order (r : Run next s₀ h s) {i j : ι} {op : Op} {out : Out}
    (hs : [.call j op, .ret i out].Sublist h) (hj : j ∈ (effects h).map Prod.fst) :
    [j, i].Sublist ((effects h).map Prod.fst) := by
  induction r with
  | nil => cases hs
  | call r hfresh ih =>
    rcases List.sublist_cons_iff.1 hs with hs | ⟨l, hl, -⟩
    · exact ih hs hj
    · -- the call itself comes later than any effect of its number
      cases hl
      obtain ⟨⟨k, op', out'⟩, hx, rfl⟩ := List.mem_map.1 hj
      exact absurd rfl (hfresh _ (mem_effects.1 hx))
  | effect r _ _ _ ih =>
    rcases List.sublist_cons_iff.1 hs with hs' | ⟨l, hl, -⟩
    · rcases List.mem_cons.1 hj with rfl | hj
      · obtain ⟨op', hi⟩ := r.returned (hs'.subset (List.mem_cons_of_mem _ List.mem_cons_self))
        have hmem : i ∈ (effects _).map Prod.fst := List.mem_map.2 ⟨_, mem_effects.2 hi, rfl⟩
        exact (List.singleton_sublist.2 hmem).cons_cons _
      · exact (ih hs' hj).cons _
    · cases hl
  | ret r _ ih =>
    rcases List.sublist_cons_iff.1 hs with hs | ⟨l, hl, -⟩
    · exact ih hs hj
    · cases hl

/-- **Effect points linearize.** -/
theorem linearization (r : Run next s₀ h s) : Linearization next s₀ h (effects h) s where
  legal := r.legal
  nodup := r.nodup
  called _ _ _ hm := r.called (mem_effects.1 hm)
  returned _ _ hm := by
    obtain ⟨op, he⟩ := r.returned hm
    exact ⟨op, r.called he, mem_effects.2 he⟩
  order _ _ _ _ hs hj := r.order hs hj

end Run

end Linear
