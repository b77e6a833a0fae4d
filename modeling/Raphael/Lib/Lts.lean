/-
  Runs of a labelled transition system whose step is a partial function.

  * `run step s ls` performs the steps `ls` from `s`; it fails if one of them
    is not enabled.
  * `of_guard` inverts a step behind a test.
  * `Along step ok s ls`: every step of the run meets the condition `ok` in
    the state it is taken in.
  * `run_inv`: what the steps meeting `ok` preserve holds at the end of every
    run along `ok`; `Along.imp` gets another condition from such an invariant.
  * `along_iff`: what one step keeps exactly if it meets `ok` holds in all states
    of exactly the runs along `ok`.
-/
import Mathlib.Tactic.Common

namespace Lts

variable {σ ℓ : Type*} {step : σ → ℓ → Option σ}

/-- Perform the steps `ls` from `s`. -/
def run (step : σ → ℓ → Option σ) (s : σ) (ls : List ℓ) : Option σ := ls.foldlM step s

@[simp] theorem run_nil (s : σ) : run step s [] = some s := rfl

theorem run_cons (s : σ) (l : ℓ) (ls : List ℓ) :
    run step s (l :: ls) = (step s l).bind (run step · ls) := rfl

theorem run_cons_some {s s' : σ} {l : ℓ} {ls : List ℓ} :
    run step s (l :: ls) = some s' ↔ ∃ s₁, step s l = some s₁ ∧ run step s₁ ls = some s' := by
  simp [run_cons, Option.bind_eq_some_iff]

/-- A step behind a test. -/
theorem of_guard {p : Prop} [Decidable p] {s s' : σ} (e : (if p then some s else none) = some s') :
    p ∧ s' = s := by
  obtain ⟨hp, e⟩ := Option.ite_none_right_eq_some.1 e
  exact ⟨hp, (Option.some.inj e).symm⟩

/-- Every step of the run `ls` from `s` meets `ok`. -/
def Along (step : σ → ℓ → Option σ) (ok : σ → ℓ → Prop) : σ → List ℓ → Prop
  | _, [] => True
  | s, l :: ls => ok s l ∧ ∀ s', step s l = some s' → Along step ok s' ls

instance decidableAlong (ok : σ → ℓ → Prop) [∀ s l, Decidable (ok s l)] :
    ∀ (s : σ) (ls : List ℓ), Decidable (Along step ok s ls)
  | _, [] => isTrue trivial
  | s, l :: ls =>
    match h : step s l with
    | none => decidable_of_iff (ok s l) (by simp [Along, h])
    | some s' =>
      have := decidableAlong ok s' ls
      decidable_of_iff (ok s l ∧ Along step ok s' ls) (by simp [Along, h])

variable {Inv : σ → Prop} {ok : σ → ℓ → Prop}

/-- A condition on the labels only. -/
theorem Along.of_forall {p : ℓ → Prop} {ls : List ℓ} (h : ∀ l ∈ ls, p l) (s : σ) :
    Along step (fun _ l => p l) s ls := by
  induction ls generalizing s with
  | nil => trivial
  | cons l ls ih =>
    exact ⟨h l List.mem_cons_self,
      fun s' _ => ih (fun l' hl => h l' (List.mem_cons_of_mem l hl)) s'⟩

/-- **Invariants**: what every step meeting `ok` preserves holds at the end of
    a run along `ok`. -/
theorem run_inv (hstep : ∀ s l s', Inv s → ok s l → step s l = some s' → Inv s') :
    ∀ {ls : List ℓ} {s s' : σ}, Inv s → Along step ok s ls → run step s ls = some s' →
      Inv s' := by
  intro ls
  induction ls with
  | nil =>
    intro s s' hi _ hr
    cases hr
    exact hi
  | cons l ls ih =>
    intro s s' hi ha hr
    obtain ⟨s₁, h₁, hr⟩ := run_cons_some.1 hr
    exact ih (hstep s l s₁ hi ha.1 h₁) (ha.2 s₁ h₁) hr

/-- Along a condition that keeps an invariant, whatever the two imply holds. -/
theorem Along.imp {ok' : σ → ℓ → Prop}
    (hstep : ∀ s l s', Inv s → ok s l → step s l = some s' → Inv s')
    (himp : ∀ s l, Inv s → ok s l → ok' s l) :
    ∀ {ls : List ℓ} {s : σ}, Inv s → Along step ok s ls → Along step ok' s ls := by
  intro ls
  induction ls with
  | nil =>
    intro s _ _
    trivial
  | cons l ls ih =>
    intro s hi ha
    exact ⟨himp s l hi ha.1, fun s' e => ih (hstep s l s' hi ha.1 e) (ha.2 s' e)⟩

/-- **Exact conditions**: where a step keeps `P` iff it meets `ok`, all states of
    a run meet `P` iff all its steps meet `ok`. -/
theorem along_iff {P : σ → Prop}
    (hstep : ∀ s l s', Inv s → P s → step s l = some s' → Inv s' ∧ (P s' ↔ ok s l)) :
    ∀ {ls : List ℓ} {s s' : σ}, Inv s → P s → run step s ls = some s' →
      ((∀ ls₁ s₁, ls₁ <+: ls → run step s ls₁ = some s₁ → P s₁) ↔ Along step ok s ls) := by
  intro ls
  induction ls with
  | nil =>
    intro s s' _ hp _
    refine iff_of_true (fun ls₁ s₁ hls hr => ?_) trivial
    obtain rfl := List.prefix_nil.1 hls
    cases hr
    exact hp
  | cons l ls ih =>
    intro s s' hi hp hr
    obtain ⟨s₁, h₁, hrun⟩ := run_cons_some.1 hr
    obtain ⟨hi₁, hiff⟩ := hstep s l s₁ hi hp h₁
    constructor
    · intro h
      have hp₁ : P s₁ := h [l] s₁ (by simp) (by simp [run_cons, h₁])
      refine ⟨hiff.1 hp₁, fun s₂ h₂ => ?_⟩
      obtain rfl := Option.some.inj (h₁.symm.trans h₂)
      refine (ih hi₁ hp₁ hrun).1 fun ls₁ s₂ hls hr₂ => ?_
      exact h (l :: ls₁) s₂ (List.cons_prefix_cons.2 ⟨rfl, hls⟩) (run_cons_some.2 ⟨s₁, h₁, hr₂⟩)
    · rintro ⟨hok, hrest⟩ ls₁ s₂ hls hr₂
      cases ls₁ with
      | nil =>
        cases hr₂
        exact hp
      | cons l₁ ls₁ =>
        obtain ⟨rfl, htail⟩ := List.cons_prefix_cons.1 hls
        obtain ⟨s₃, h₃, hr₂⟩ := run_cons_some.1 hr₂
        obtain rfl := Option.some.inj (h₁.symm.trans h₃)
        exact (ih hi₁ (hiff.2 hok) hrun).2 (hrest s₁ h₁) ls₁ s₂ htail hr₂

end Lts
