/-
  Nullable singly linked lists over an arbitrary type of pointers.

  A memory is given by its `next` field, a function from pointers to nullable
  pointers.

  * `Path next p l`: following `next` from `p` visits exactly `l` and ends at
    null.  The path from a pointer is unique (`Path.unique`) and visits no
    pointer twice (`Path.nodup`): a list with a path is acyclic.
  * `Path.push` and `Path.unlink` are edits of a singly linked list: put a node
    in front, unlink a node that is not the first.
  * `walk` is the loop `for (; p; p = p->next)` and `seek` the loop
    `while (p->next && !f(p->next)) p = p->next`, each with a bound on its
    rounds; along a path both end (`Path.walk`, `Path.seek_hit`, `Path.seek_miss`).
-/
import Mathlib.Logic.Function.Basic
import Mathlib.Data.List.Basic

namespace Linked

variable {P : Type*} {next : P → Option P}

/-- Following `next` from the nullable pointer `p` visits exactly `l` and ends
    at null. -/
def Path (next : P → Option P) : Option P → List P → Prop
  | p, [] => p = none
  | p, x :: l => p = some x ∧ Path next (next x) l

instance decidablePath [DecidableEq P] : ∀ (p : Option P) (l : List P), Decidable (Path next p l)
  | p, [] => inferInstanceAs (Decidable (p = none))
  | p, x :: l =>
    have := decidablePath (next x) l
    inferInstanceAs (Decidable (p = some x ∧ Path next (next x) l))

@[simp] theorem path_none {l : List P} : Path next none l ↔ l = [] := by
  cases l <;> simp [Path]

@[simp] theorem path_some {x : P} {l : List P} :
    Path next (some x) l ↔ ∃ l', l = x :: l' ∧ Path next (next x) l' := by
  cases l with
  | nil => simp [Path]
  | cons y l =>
    simp only [Path, Option.some.injEq, List.cons.injEq]
    constructor
    · rintro ⟨rfl, h⟩; exact ⟨l, ⟨rfl, rfl⟩, h⟩
    · rintro ⟨l', ⟨rfl, rfl⟩, h⟩; exact ⟨rfl, h⟩

theorem Path.unique {p : Option P} {l l' : List P} (h : Path next p l) (h' : Path next p l') :
    l = l' := by
  induction l generalizing p l' with
  | nil =>
    cases h
    exact (path_none.1 h').symm
  | cons x l ih =>
    obtain ⟨rfl, h⟩ := h
    obtain ⟨l₁, rfl, h₁⟩ := path_some.1 h'
    rw [ih h h₁]

/-- A path depends on the links of its own pointers only. -/
theorem Path.congr {next' : P → Option P} {p : Option P} {l : List P} (h : Path next p l)
    (hn : ∀ x ∈ l, next' x = next x) : Path next' p l := by
  induction l generalizing p with
  | nil => exact h
  | cons x l ih =>
    obtain ⟨e, h⟩ := h
    refine ⟨e, ?_⟩
    rw [hn x List.mem_cons_self]
    exact ih h fun y hy => hn y (List.mem_cons_of_mem x hy)

/-- The rest of a path is the path from any of its pointers. -/
theorem Path.suffix {p : Option P} {l₁ : List P} {x : P} {l₂ : List P}
    (h : Path next p (l₁ ++ x :: l₂)) : Path next (next x) l₂ := by
  induction l₁ generalizing p with
  | nil => exact h.2
  | cons y l₁ ih => exact ih h.2

/-- **A path visits no pointer twice.** -/
theorem Path.nodup {p : Option P} {l : List P} (h : Path next p l) : l.Nodup := by
  induction l generalizing p with
  | nil => exact List.nodup_nil
  | cons x l ih =>
    refine List.nodup_cons.2 ⟨?_, ih h.2⟩
    intro hx
    -- the path from a second visit of `x` would be a proper suffix of itself
    obtain ⟨l₁, l₂, rfl⟩ := List.append_of_mem hx
    have := congrArg List.length (Path.unique h.2 h.2.suffix)
    simp at this; omega

section edits
variable [DecidableEq P]

theorem Path.update {p : Option P} {l : List P} (h : Path next p l) {x : P} (hx : x ∉ l)
    (q : Option P) : Path (Function.update next x q) p l :=
  h.congr fun _ hy => Function.update_of_ne (ne_of_mem_of_not_mem hy hx) ..

/-- Put the node `x` in front. -/
theorem Path.push {p : Option P} {l : List P} (h : Path next p l) {x : P} (hx : x ∉ l) :
    Path (Function.update next x p) (some x) (x :: l) :=
  ⟨rfl, by rw [Function.update_self]; exact h.update hx p⟩

/-- Unlink the node `z` after the node `y`. -/
theorem Path.unlink {p : Option P} {l₁ : List P} {y z : P} {l₂ : List P}
    (h : Path next p (l₁ ++ y :: z :: l₂)) :
    Path (Function.update next y (next z)) p (l₁ ++ y :: l₂) := by
  have hn := h.nodup
  induction l₁ generalizing p with
  | nil =>
    obtain ⟨e, h⟩ := h
    have hy : y ∉ l₂ := by
      intro hy
      simp [hy] at hn
    refine ⟨e, ?_⟩
    rw [Function.update_self]
    exact h.2.update hy _
  | cons x l₁ ih =>
    obtain ⟨e, h⟩ := h
    have hxy : x ≠ y := by
      rintro rfl
      simp at hn
    refine ⟨e, ?_⟩
    rw [Function.update_of_ne hxy]
    exact ih h h.nodup

end edits

/-! ## Loops along a list -/

/-- The loop `for (; p; p = p->next)` with at most `n` rounds: the visited
    pointers, or nothing if it is still running. -/
def walk (next : P → Option P) : ℕ → Option P → Option (List P)
  | _, none => some []
  | 0, some _ => none
  | n + 1, some x => (walk next n (next x)).map (x :: ·)

theorem Path.walk {p : Option P} {l : List P} (h : Path next p l) {n : ℕ} (hn : l.length ≤ n) :
    walk next n p = some l := by
  induction l generalizing p n with
  | nil => cases h; simp [Linked.walk]
  | cons x l ih =>
    obtain ⟨rfl, h⟩ := h
    cases n with
    | zero => simp at hn
    | succ n => simp [Linked.walk, ih h (show l.length ≤ n by simpa using hn)]

/-- The loop `while (p->next && !f(p->next)) p = p->next` with at most `n`
    rounds: the pointer it stops at. -/
def seek (next : P → Option P) (f : P → Bool) : ℕ → P → Option P
  | 0, _ => none
  | n + 1, p =>
    match next p with
    | none => some p
    | some q => if f q then some p else seek next f n q

/-- Along a path the loop stops in front of the first later node passing `f`. -/
theorem Path.seek_hit {f : P → Bool} {l₁ : List P} {p z : P} {l₂ : List P} {n : ℕ}
    (h : Path next (next p) (l₁ ++ z :: l₂)) (hl : ∀ x ∈ l₁, f x = false) (hz : f z = true)
    (hn : l₁.length < n) : ∃ l₀ y, p :: l₁ = l₀ ++ [y] ∧ seek next f n p = some y := by
  induction l₁ generalizing p n with
  | nil =>
    cases n with
    | zero => simp at hn
    | succ n => exact ⟨[], p, rfl, by simp [seek, h.1, hz]⟩
  | cons x l₁ ih =>
    cases n with
    | zero => simp at hn
    | succ n =>
      obtain ⟨l₀, y, e, hy⟩ := ih h.2 (fun x' hx => hl x' (List.mem_cons_of_mem x hx))
        (by simpa using hn)
      exact ⟨p :: l₀, y, by rw [e]; rfl, by simp [seek, h.1, hl x List.mem_cons_self, hy]⟩

/-- Along a path without a node passing `f` the loop stops at the last node. -/
theorem Path.seek_miss {f : P → Bool} {l : List P} {p : P} {n : ℕ}
    (h : Path next (next p) l) (hl : ∀ x ∈ l, f x = false) (hn : l.length < n) :
    ∃ y, next y = none ∧ seek next f n p = some y := by
  induction l generalizing p n with
  | nil =>
    cases n with
    | zero => simp at hn
    | succ n =>
      have h : next p = none := h
      exact ⟨p, h, by simp [seek, h]⟩
  | cons x l ih =>
    cases n with
    | zero => simp at hn
    | succ n =>
      obtain ⟨y, hy, e⟩ := ih h.2 (fun x' hx => hl x' (List.mem_cons_of_mem x hx))
        (by simpa using hn)
      exact ⟨y, hy, by simp [seek, h.1, hl x List.mem_cons_self, e]⟩

end Linked
