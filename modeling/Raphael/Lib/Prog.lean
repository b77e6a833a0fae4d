/-
  Sequential programs as trees of their operations.

  A program over operations `Op`, where the operation `o` answers with a
  `Res o`, either returns or performs an operation and goes on with the
  answer.  The same tree can be run to the end (`exec`), stepped from outside
  by an interleaving semantics (its root is the next operation), or inspected
  (`May`, `Each`).
-/
import Mathlib.Tactic.Common

/-- Programs over the operations `Op` answering in `Res`. -/
inductive Prog (Op : Type) (Res : Op → Type) (α : Type) where
  | ret (a : α)
  | op (o : Op) (k : Res o → Prog Op Res α)

namespace Prog

variable {Op : Type} {Res : Op → Type} {α β : Type}

def bind : Prog Op Res α → (α → Prog Op Res β) → Prog Op Res β
  | ret a, f => f a
  | op o k, f => op o fun r => (k r).bind f

instance : Monad (Prog Op Res) where
  pure := ret
  bind := bind

@[simp] theorem pure_eq (a : α) : (pure a : Prog Op Res α) = ret a := rfl

@[simp] theorem ret_bind (a : α) (f : α → Prog Op Res β) : (ret a >>= f) = f a := rfl

@[simp] theorem op_bind (o : Op) (k : Res o → Prog Op Res α) (f : α → Prog Op Res β) :
    (op o k >>= f) = op o fun r => k r >>= f := rfl

@[simp] theorem ite_bind (p : Prop) [Decidable p] (x y : Prog Op Res α)
    (f : α → Prog Op Res β) : ((if p then x else y) >>= f) = if p then x >>= f else y >>= f := by
  split <;> rfl

/-- Run a program to the end, the operations being performed by `h`. -/
def exec {σ : Type} (h : (o : Op) → σ → Option (σ × Res o)) : Prog Op Res α → σ → Option (σ × α)
  | ret a, s => some (s, a)
  | op o k, s => (h o s).bind fun r => exec h (k r.2) r.1

theorem exec_bind {σ : Type} (h : (o : Op) → σ → Option (σ × Res o)) (f : α → Prog Op Res β)
    (p : Prog Op Res α) (s : σ) :
    exec h (p >>= f) s = (exec h p s).bind fun r => exec h (f r.2) r.1 := by
  induction p generalizing s with
  | ret a => rfl
  | op o k ih =>
    simp only [op_bind, exec, Option.bind_assoc]
    congr 1
    funext r
    exact ih r.2 r.1

/-- **Invariants**: what every operation keeps, a program keeps. -/
theorem exec_inv {σ : Type} {h : (o : Op) → σ → Option (σ × Res o)} {I : σ → Prop}
    (hop : ∀ o s t r, I s → h o s = some (t, r) → I t) (p : Prog Op Res α) :
    ∀ {s t : σ} {a : α}, I s → exec h p s = some (t, a) → I t := by
  induction p with
  | ret a =>
    intro s t b hi e
    cases e
    exact hi
  | op o k ih =>
    intro s t b hi e
    obtain ⟨⟨s₁, r⟩, h₁, e⟩ := Option.bind_eq_some_iff.1 e
    exact ih r (hop o s s₁ r hi h₁) e

/-- Some path performs an operation of `goal`, and none of `stop` before. -/
def May (stop goal : Op → Prop) : Prog Op Res α → Prop
  | ret _ => False
  | op o k => ¬ stop o ∧ (goal o ∨ ∃ r, (k r).May stop goal)

/-- All operations on all paths meet `p`. -/
def Each (p : Op → Prop) : Prog Op Res α → Prop
  | ret _ => True
  | op o k => p o ∧ ∀ r, (k r).Each p

theorem each_ite {P : Op → Prop} {p : Prop} [Decidable p] {x y : Prog Op Res α} :
    (if p then x else y).Each P ↔ if p then x.Each P else y.Each P := by
  split <;> rfl

end Prog
