/-
  Bisection with probes of three outcomes.

  * `bisect` halves an interval of indices until a probe stops it.
  * `bisectWrap` adds the bounds in machine words; up to half of the words it is `bisect`
    (`bisectWrap_eq`), above it may go on for ever.
  * `Split`: the probes below an index say `above`, those from another one on `below`.
  * `bisect_of_split`, `bisect_eq_none`: what the search finds in split probes.
-/
import Mathlib.Algebra.Ring.Nat
import Mathlib.Order.Basic
import Mathlib.Tactic.ByContra

namespace Bisect

/-- What a probe at an index says: go on among the smaller ones, among the larger ones,
    or stop. -/
inductive Probe (β : Type*)
  | below
  | above
  | stop (b : β)

variable {β : Type*} (probe : ℕ → Probe β)

def bisect (low high : ℕ) : Option β :=
  if _h : low < high then
    match probe ((low + high) / 2) with
    | .below => bisect low ((low + high) / 2)
    | .above => bisect ((low + high) / 2 + 1) high
    | .stop b => some b
  else none
termination_by high - low
decreasing_by all_goals omega

/-- The search with the sum of the bounds in `w` bits, for at most the given number of
    rounds. -/
def bisectWrap (w : ℕ) : ℕ → ℕ → ℕ → Option (Option β)
  | 0, _, _ => none
  | rounds + 1, low, high =>
    if low < high then
      let index := (low + high) % 2 ^ w / 2
      match probe index with
      | .below => bisectWrap w rounds low index
      | .above => bisectWrap w rounds (index + 1) high
      | .stop b => some (some b)
    else some none

/-- Below half of the words no sum wraps around. -/
theorem bisectWrap_eq {w rounds low high : ℕ} (hw : 2 * high ≤ 2 ^ w) (hr : high - low < rounds) :
    bisectWrap probe w rounds low high = some (bisect probe low high) := by
  induction rounds generalizing low high with
  | zero => omega
  | succ rounds ih =>
    rw [bisectWrap, bisect]
    by_cases hlt : low < high
    · rw [if_pos hlt, dif_pos hlt, Nat.mod_eq_of_lt (by omega)]
      dsimp only
      cases probe ((low + high) / 2) with
      | below => exact ih (by omega) (by omega)
      | above => exact ih (by omega) (by omega)
      | stop b => rfl
    · rw [if_neg hlt, dif_neg hlt]

/-- Above, the sum of the bounds 1 and `2 ^ 32 - 1` is 0, and the search stays there. -/
example (rounds : ℕ) : bisectWrap (fun _ => (.above : Probe β)) 32 rounds 1 (2 ^ 32 - 1) = none := by
  induction rounds with
  | zero => rfl
  | succ rounds ih => exact ih

/-- Below `i` the probes say `above`, from `j` on they say `below`. -/
structure Split (low high i j : ℕ) : Prop where
  above : ∀ k, low ≤ k → k < i → probe k = .above
  below : ∀ k, j ≤ k → k < high → probe k = .below

variable {probe} {low high i j : ℕ}

theorem Split.up {m : ℕ} (h : Split probe low high i j) (hm : low ≤ m) : Split probe m high i j :=
  ⟨fun k hk => h.above k (Nat.le_trans hm hk), h.below⟩

theorem Split.down {m : ℕ} (h : Split probe low high i j) (hm : m ≤ high) : Split probe low m i j :=
  ⟨h.above, fun k hk hk' => h.below k hk (Nat.lt_of_lt_of_le hk' hm)⟩

/-- The search finds the one index between. -/
theorem bisect_of_split {b : β} (h : Split probe low high i (i + 1)) (hl : low ≤ i) (hh : i < high)
    (hi : probe i = .stop b) : bisect probe low high = some b := by
  induction low, high using bisect.induct probe with
  | case1 low high hlt hm ih =>
    rw [bisect, dif_pos hlt, hm]
    have hne : i < (low + high) / 2 := by
      by_contra hle
      rcases Nat.lt_or_eq_of_le (Nat.le_of_not_lt hle) with hlt' | e
      · rw [h.above _ (by omega) hlt'] at hm
        cases hm
      · rw [e, hi] at hm
        cases hm
    exact ih (h.down (by omega)) hl hne
  | case2 low high hlt hm ih =>
    rw [bisect, dif_pos hlt, hm]
    have hne : (low + high) / 2 < i := by
      by_contra hle
      rcases Nat.lt_or_eq_of_le (Nat.le_of_not_lt hle) with hlt' | e
      · rw [h.below _ hlt' (by omega)] at hm
        cases hm
      · rw [← e, hi] at hm
        cases hm
    exact ih (h.up (by omega)) hne hh
  | case3 low high hlt b' hm =>
    rw [bisect, dif_pos hlt, hm]
    rcases Nat.lt_trichotomy ((low + high) / 2) i with hlt' | e | hgt
    · rw [h.above _ (by omega) hlt'] at hm
      cases hm
    · rw [e, hi] at hm
      cases hm
      rfl
    · rw [h.below _ hgt (by omega)] at hm
      cases hm
  | case4 low high hlt => omega

/-- What the search finds is what a probe stops with. -/
theorem exists_probe_of_bisect {b : β} (h : bisect probe low high = some b) :
    ∃ k, probe k = .stop b := by
  induction low, high using bisect.induct probe with
  | case1 low high hlt hm ih =>
    rw [bisect, dif_pos hlt, hm] at h
    exact ih h
  | case2 low high hlt hm ih =>
    rw [bisect, dif_pos hlt, hm] at h
    exact ih h
  | case3 low high hlt b' hm =>
    rw [bisect, dif_pos hlt, hm] at h
    exact ⟨_, hm.trans (congrArg _ (Option.some.inj h))⟩
  | case4 low high hlt =>
    rw [bisect, dif_neg hlt] at h
    cases h

/-- Where no probe stops nothing is found. -/
theorem bisect_eq_none (h : ∀ k, low ≤ k → k < high → ∀ b, probe k ≠ .stop b) :
    bisect probe low high = none := by
  induction low, high using bisect.induct probe with
  | case1 low high hlt hm ih =>
    rw [bisect, dif_pos hlt, hm]
    exact ih fun k hk hk' => h k hk (by omega)
  | case2 low high hlt hm ih =>
    rw [bisect, dif_pos hlt, hm]
    exact ih fun k hk hk' => h k (by omega) hk'
  | case3 low high hlt b hm => exact absurd hm (h _ (by omega) (by omega) b)
  | case4 low high hlt => rw [bisect, dif_neg hlt]

end Bisect
