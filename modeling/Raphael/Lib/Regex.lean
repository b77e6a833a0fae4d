/-
  Backtracking regular expressions over texts.

  `outcomes r s` are the ways a backtracking matcher lets `r` match at the
  start of `s`, in the order in which it tries them: the groups it captures
  (in the order of their opening brackets) and what is left of the text.
  `$` is the end of a line, and a group is captured once.

  * `Matches` says what a match is; `mem_outcomes` that the matcher finds
    exactly the matches, `head?_run` which of them it takes where a sequence
    starts with a run.
  * `findAll` and `split` scan a text from left to right, as `findall` and
    `split` of a regex library do, each time taking the first outcome.
  * An expression without a class containing the line feed (`oneLine`) never
    looks beyond a line (`outcomes_line`), so it is found line by line
    (`findAll_unlines`).
-/
import Mathlib.Data.List.Basic
import Mathlib.Data.Option.Basic
import Mathlib.Tactic.Common

inductive Regex
  /-- one character of a class -/
  | cls (p : Char → Bool)
  /-- one or more characters of a class, as many as possible first -/
  | plus (p : Char → Bool)
  /-- `$` -/
  | eol
  | seq (r t : Regex)
  | alt (r t : Regex)
  | grp (r : Regex)

namespace Regex

instance : Append Regex := ⟨seq⟩

/-- The character `c`. -/
def chr (c : Char) : Regex := cls (· == c)

/-! ## Matching -/

/-- What is left after a run of at least one character of `p`, the longest run
    first. -/
def runs (p : Char → Bool) : List Char → List (List Char)
  | [] => []
  | c :: s => if p c then runs p s ++ [s] else []

/-- The matches at the start of a text in the order of the search: the groups
    and the rest. -/
def outcomes : Regex → List Char → List (List (List Char) × List Char)
  | cls _, [] => []
  | cls p, c :: s => if p c then [([], s)] else []
  | plus p, s => (runs p s).map ([], ·)
  | eol, s => if s = [] ∨ s.head? = some '\n' then [([], s)] else []
  | seq r t, s => (r.outcomes s).flatMap fun o => (t.outcomes o.2).map fun q => (o.1 ++ q.1, q.2)
  | alt r t, s => r.outcomes s ++ t.outcomes s
  | grp r, s => (r.outcomes s).map fun o => (s.take (s.length - o.2.length) :: o.1, o.2)

/-- A run of characters of `p`, at least one. -/
structure Run (p : Char → Bool) (w : List Char) : Prop where
  ne_nil : w ≠ []
  all : ∀ c ∈ w, p c

/-- `r` matches the text `w` in front of `rest`, capturing `g`. -/
def Matches : Regex → List Char → List (List Char) → List Char → Prop
  | cls p, w, g, _ => ∃ c, p c ∧ w = [c] ∧ g = []
  | plus p, w, g, _ => Run p w ∧ g = []
  | eol, w, g, rest => (rest = [] ∨ rest.head? = some '\n') ∧ w = [] ∧ g = []
  | seq r t, w, g, rest => ∃ w₁ w₂ g₁ g₂, r.Matches w₁ g₁ (w₂ ++ rest) ∧ t.Matches w₂ g₂ rest ∧
      w = w₁ ++ w₂ ∧ g = g₁ ++ g₂
  | alt r t, w, g, rest => r.Matches w g rest ∨ t.Matches w g rest
  | grp r, w, g, rest => ∃ g', r.Matches w g' rest ∧ g = w :: g'

@[simp] theorem matches_append (r t : Regex) (w : List Char) (g : List (List Char))
    (rest : List Char) : (r ++ t).Matches w g rest ↔
      ∃ w₁ w₂ g₁ g₂, r.Matches w₁ g₁ (w₂ ++ rest) ∧ t.Matches w₂ g₂ rest ∧
        w = w₁ ++ w₂ ∧ g = g₁ ++ g₂ := Iff.rfl

@[simp] theorem matches_chr (c : Char) (w : List Char) (g : List (List Char)) (rest : List Char) :
    (chr c).Matches w g rest ↔ w = [c] ∧ g = [] := by
  simp [chr, Matches]

@[simp] theorem matches_run (p : Char → Bool) (w : List Char) (g : List (List Char))
    (rest : List Char) : (grp (plus p)).Matches w g rest ↔ Run p w ∧ g = [w] := by
  constructor
  · rintro ⟨_, ⟨h, rfl⟩, rfl⟩; exact ⟨h, rfl⟩
  · rintro ⟨h, rfl⟩; exact ⟨[], ⟨h, rfl⟩, rfl⟩

@[simp] theorem matches_eol (w : List Char) (g : List (List Char)) (rest : List Char) :
    eol.Matches w g rest ↔ (rest = [] ∨ rest.head? = some '\n') ∧ w = [] ∧ g = [] := Iff.rfl

theorem mem_runs {p : Char → Bool} {s rest : List Char} :
    rest ∈ runs p s ↔ ∃ w, s = w ++ rest ∧ Run p w := by
  induction s with
  | nil =>
    refine ⟨fun h => by simp [runs] at h, ?_⟩
    rintro ⟨w, h, hw, -⟩
    exact absurd (List.append_eq_nil_iff.1 h.symm).1 hw
  | cons c s ih =>
    by_cases hc : p c
    · rw [runs, if_pos hc, List.mem_append, List.mem_singleton, ih]
      constructor
      · rintro (⟨w, rfl, -, hw⟩ | rfl)
        · exact ⟨c :: w, rfl, by simp, by simpa [hc] using hw⟩
        · exact ⟨[c], rfl, by simp, by simpa using hc⟩
      · rintro ⟨w, e, hne, hw⟩
        obtain ⟨w, rfl⟩ : ∃ w', w = c :: w' := by
          rcases w with _ | ⟨d, w⟩
          · exact absurd rfl hne
          · exact ⟨w, by rw [(List.cons.inj e).1]⟩
        obtain rfl : s = w ++ rest := by simpa using e
        rcases w with _ | ⟨d, w⟩
        · exact .inr rfl
        · exact .inl ⟨d :: w, rfl, by simp, fun x hx => hw x (.tail _ hx)⟩
    · refine ⟨fun h => by simp [runs, hc] at h, ?_⟩
      rintro ⟨w, e, hne, hw⟩
      rcases w with _ | ⟨d, w⟩
      · exact absurd rfl hne
      · exact absurd ((List.cons.inj e).1 ▸ hw d (by simp)) hc

section search
variable {p : Char → Bool} {s rest : List Char} {g : List (List Char)}

theorem mem_outcomes_cls :
    (g, rest) ∈ (cls p).outcomes s ↔ ∃ w, s = w ++ rest ∧ (cls p).Matches w g rest := by
  cases s with
  | nil => simp [outcomes, Matches]
  | cons c s =>
    by_cases hc : p c
    · simp only [outcomes, hc, if_true, List.mem_singleton, Prod.mk.injEq, Matches]
      constructor
      · rintro ⟨rfl, rfl⟩
        exact ⟨[c], rfl, c, hc, rfl, rfl⟩
      · rintro ⟨_, e, d, -, rfl, rfl⟩
        exact ⟨rfl, (List.cons.inj e).2.symm⟩
    · simp only [outcomes, hc, Bool.false_eq_true, if_false, List.not_mem_nil, Matches, false_iff]
      rintro ⟨_, e, d, hd, rfl, -⟩
      exact hc ((List.cons.inj e).1 ▸ hd)

theorem mem_outcomes_plus :
    (g, rest) ∈ (plus p).outcomes s ↔ ∃ w, s = w ++ rest ∧ (plus p).Matches w g rest := by
  simp only [outcomes, List.mem_map, Prod.mk.injEq, existsAndEq, and_true, Matches, mem_runs]
  constructor
  · rintro ⟨⟨w, rfl, h⟩, rfl⟩
    exact ⟨w, rfl, h, rfl⟩
  · rintro ⟨w, rfl, h, rfl⟩
    exact ⟨⟨w, rfl, h⟩, rfl⟩

theorem mem_outcomes_eol :
    (g, rest) ∈ eol.outcomes s ↔ ∃ w, s = w ++ rest ∧ eol.Matches w g rest := by
  simp only [outcomes, Matches]
  split_ifs with h
  · simp only [List.mem_singleton, Prod.mk.injEq]
    constructor
    · rintro ⟨rfl, rfl⟩
      exact ⟨[], rfl, h, rfl, rfl⟩
    · rintro ⟨_, rfl, -, rfl, rfl⟩
      exact ⟨rfl, rfl⟩
  · refine ⟨fun h => by simp at h, ?_⟩
    rintro ⟨_, rfl, h', rfl, -⟩
    exact absurd h' h

/-- **The search finds exactly the matches.** -/
theorem mem_outcomes {r : Regex} :
    (g, rest) ∈ r.outcomes s ↔ ∃ w, s = w ++ rest ∧ r.Matches w g rest := by
  induction r generalizing s g rest with
  | cls p => exact mem_outcomes_cls
  | plus p => exact mem_outcomes_plus
  | eol => exact mem_outcomes_eol
  | seq r t ihr iht =>
    simp only [outcomes, List.mem_flatMap, List.mem_map, Prod.mk.injEq, Prod.exists, Matches,
      ihr, iht]
    constructor
    · rintro ⟨g₁, _, ⟨w₁, rfl, h₁⟩, g₂, _, ⟨w₂, rfl, h₂⟩, rfl, rfl⟩
      exact ⟨w₁ ++ w₂, by simp, w₁, w₂, g₁, g₂, h₁, h₂, rfl, rfl⟩
    · rintro ⟨_, rfl, w₁, w₂, g₁, g₂, h₁, h₂, rfl, rfl⟩
      exact ⟨g₁, w₂ ++ rest, ⟨w₁, by simp, h₁⟩, g₂, rest, ⟨w₂, rfl, h₂⟩, rfl, rfl⟩
  | alt r t ihr iht =>
    simp only [outcomes, List.mem_append, ihr, iht, Matches]
    constructor
    · rintro (⟨w, e, h⟩ | ⟨w, e, h⟩)
      · exact ⟨w, e, .inl h⟩
      · exact ⟨w, e, .inr h⟩
    · rintro ⟨w, e, h | h⟩
      · exact .inl ⟨w, e, h⟩
      · exact .inr ⟨w, e, h⟩
  | grp r ih =>
    simp only [outcomes, List.mem_map, Prod.mk.injEq, Prod.exists, Matches, ih]
    constructor
    · rintro ⟨g', _, ⟨w, rfl, h⟩, rfl, rfl⟩
      exact ⟨w, rfl, g', h, by simp⟩
    · rintro ⟨w, rfl, g', h, rfl⟩
      exact ⟨g', rest, ⟨w, rfl, h⟩, by simp, rfl⟩

end search

/-- Some match at the start of a text is found first. -/
theorem exists_head?_outcomes {r : Regex} {w : List Char} {g : List (List Char)} {rest : List Char}
    (h : r.Matches w g rest) : ∃ o, (r.outcomes (w ++ rest)).head? = some o := by
  have hm : (g, rest) ∈ r.outcomes (w ++ rest) := mem_outcomes.2 ⟨w, rfl, h⟩
  exact ⟨_, List.head?_eq_some_head (List.ne_nil_of_mem hm)⟩

/-- A group is a part of the match. -/
theorem Matches.isInfix {r : Regex} {w : List Char} {g : List (List Char)} {rest : List Char}
    (h : r.Matches w g rest) : ∀ x ∈ g, x <:+: w := by
  induction r generalizing w g rest with
  | cls p =>
    obtain ⟨c, -, -, rfl⟩ := h
    simp
  | plus p =>
    obtain ⟨-, rfl⟩ := h
    simp
  | eol =>
    obtain ⟨-, -, rfl⟩ := h
    simp
  | seq r t ihr iht =>
    obtain ⟨w₁, w₂, g₁, g₂, h₁, h₂, rfl, rfl⟩ := h
    intro x hx
    rcases List.mem_append.1 hx with hx | hx
    · exact (ihr h₁ x hx).trans (List.infix_append' [] w₁ w₂)
    · exact (iht h₂ x hx).trans (List.suffix_append w₁ w₂).isInfix
  | alt r t ihr iht =>
    rcases h with h | h
    · exact ihr h
    · exact iht h
  | grp r ih =>
    obtain ⟨g', h, rfl⟩ := h
    exact List.forall_mem_cons.2 ⟨List.infix_rfl, ih h⟩

/-! ## Priorities -/

theorem outcomes_append (r t : Regex) (s : List Char) : (r ++ t).outcomes s =
    (r.outcomes s).flatMap fun o => (t.outcomes o.2).map fun q => (o.1 ++ q.1, q.2) := rfl

/-- How a sequence is bracketed does not matter. -/
theorem outcomes_assoc (r t u : Regex) (s : List Char) :
    (r ++ t ++ u).outcomes s = (r ++ (t ++ u)).outcomes s := by
  simp only [outcomes_append, List.flatMap_assoc, List.flatMap_map, List.map_flatMap, List.map_map,
    Function.comp_def, List.append_assoc]

/-- The first match of a sequence goes on from the first match of its first part
    that it can go on from. -/
theorem head?_append {r t : Regex} {s rest : List Char} {g : List (List Char)}
    (h : ((r ++ t).outcomes s).head? = some (g, rest)) :
    ∃ l₁ o l₂ g', r.outcomes s = l₁ ++ o :: l₂ ∧ (∀ o' ∈ l₁, t.outcomes o'.2 = []) ∧
      (t.outcomes o.2).head? = some (g', rest) ∧ g = o.1 ++ g' := by
  rw [outcomes_append, List.head?_flatMap, List.findSome?_eq_some_iff] at h
  obtain ⟨l₁, o, l₂, hl, ho, hnone⟩ := h
  rw [List.head?_map] at ho
  obtain ⟨⟨g', rest'⟩, hq, e⟩ := Option.map_eq_some_iff.1 ho
  obtain ⟨hg, rfl⟩ := Prod.mk.inj e
  refine ⟨l₁, o, l₂, g', hl, fun o' ho' => ?_, hq, hg.symm⟩
  exact List.map_eq_nil_iff.1 (List.head?_eq_none_iff.1 (hnone o' ho'))

/-- The runs are tried from the longest one on. -/
theorem runs_pairwise (p : Char → Bool) (s : List Char) :
    (runs p s).Pairwise fun u v => u.length < v.length := by
  induction s with
  | nil => exact List.Pairwise.nil
  | cons c s ih =>
    rw [runs]
    split
    · refine List.pairwise_append.2 ⟨ih, List.pairwise_singleton _ _, fun u hu v hv => ?_⟩
      obtain rfl := List.mem_singleton.1 hv
      obtain ⟨w, rfl, hw⟩ := mem_runs.1 hu
      have := List.length_pos_of_ne_nil hw.ne_nil
      simp only [List.length_append]
      omega
    · exact List.Pairwise.nil

/-- **The longest run goes first**: where a sequence starts with a captured run,
    no longer run can be gone on from than the one captured. -/
theorem head?_run {p : Char → Bool} {t : Regex} {s rest : List Char} {g : List (List Char)}
    (h : ((grp (plus p) ++ t).outcomes s).head? = some (g, rest)) :
    ∃ w u g', s = w ++ u ∧ Run p w ∧ (t.outcomes u).head? = some (g', rest) ∧ g = w :: g' ∧
      ∀ w' u', s = w' ++ u' → Run p w' → t.outcomes u' ≠ [] → w'.length ≤ w.length := by
  obtain ⟨l₁, ⟨c, u⟩, l₂, g', hl, hnone, hq, rfl⟩ := head?_append h
  have hmem : (c, u) ∈ (grp (plus p)).outcomes s := by simp [hl]
  obtain ⟨w, rfl, hw⟩ := mem_outcomes.1 hmem
  obtain ⟨hrun, rfl⟩ := (matches_run ..).1 hw
  refine ⟨w, u, g', rfl, hrun, hq, rfl, fun w' u' hs hrun' hne => ?_⟩
  have hmem' : ([w'], u') ∈ (grp (plus p)).outcomes (w ++ u) :=
    mem_outcomes.2 ⟨w', hs, (matches_run ..).2 ⟨hrun', rfl⟩⟩
  have hord : ((grp (plus p)).outcomes (w ++ u)).Pairwise fun o o' => o.2.length < o'.2.length := by
    simp only [outcomes, List.map_map, List.pairwise_map]
    exact runs_pairwise p _
  have hlen := congrArg List.length hs
  simp only [List.length_append] at hlen
  rw [hl] at hmem' hord
  rcases List.mem_append.1 hmem' with hm | hm
  · exact absurd (hnone _ hm) hne
  · rcases List.mem_cons.1 hm with e | hm
    · obtain ⟨-, rfl⟩ := Prod.mk.inj e
      omega
    · have := (List.pairwise_cons.1 (List.pairwise_append.1 hord).2.1).1 _ hm
      simp only at this
      omega

/-! ## Scanning -/

/-- `findall` after the next `k` characters: the groups of the matches. -/
def findAllFrom (r : Regex) : ℕ → List Char → List (List (List Char))
  | _, [] => ((r.outcomes []).head?.map Prod.fst).toList
  | k + 1, _ :: s => findAllFrom r k s
  | 0, c :: s =>
    match (r.outcomes (c :: s)).head? with
    | none => findAllFrom r 0 s
    | some (g, rest) => g :: findAllFrom r (s.length - rest.length) s

/-- `findall` -/
def findAll (r : Regex) : List Char → List (List (List Char)) := r.findAllFrom 0

/-- `split` after the next `k` characters, for an expression that does not
    match the empty text. -/
def splitFrom (r : Regex) : ℕ → List Char → List (List Char)
  | _, [] => [[]]
  | k + 1, _ :: s => splitFrom r k s
  | 0, c :: s =>
    match (r.outcomes (c :: s)).head? with
    | none => (splitFrom r 0 s).modifyHead (c :: ·)
    | some (_, rest) => [] :: splitFrom r (s.length - rest.length) s

/-- `split` -/
def split (r : Regex) : List Char → List (List Char) := r.splitFrom 0

theorem findAllFrom_length (r : Regex) (s : List Char) :
    r.findAllFrom s.length s = r.findAll [] := by
  induction s with
  | nil => rfl
  | cons c s ih => exact ih

theorem findAll_of_outcomes_nil {r : Regex} {s : List Char}
    (h : ∀ t, t <:+ s → r.outcomes t = []) : r.findAll s = [] := by
  induction s with
  | nil => simp [findAll, findAllFrom, h [] (List.suffix_refl _)]
  | cons c s ih =>
    have hs : r.findAll s = [] := by
      apply ih
      intro t ht
      exact h t (ht.trans (List.suffix_cons c s))
    rw [findAll, findAllFrom, h _ (List.suffix_refl _)]
    exact hs

/-- A match of a whole text is the only one. -/
theorem findAll_of_head? {r : Regex} {s : List Char} {g : List (List Char)} (hs : s ≠ [])
    (h : (r.outcomes s).head? = some (g, [])) : r.findAll s = g :: r.findAll [] := by
  rcases s with _ | ⟨c, s⟩
  · exact absurd rfl hs
  · have : r.findAll (c :: s) = g :: r.findAllFrom s.length s := by
      rw [findAll, findAllFrom, h]; rfl
    rw [this, findAllFrom_length]

/-! ## Lines -/

/-- No class of the expression contains the line feed. -/
def oneLine : Regex → Bool
  | cls p | plus p => !p '\n'
  | eol => true
  | seq r t | alt r t => r.oneLine && t.oneLine
  | grp r => r.oneLine

theorem runs_line {p : Char → Bool} (hp : p '\n' = false) (s l : List Char) :
    runs p (l ++ '\n' :: s) = (runs p l).map (· ++ '\n' :: s) := by
  induction l with
  | nil => simp [runs, hp]
  | cons c l ih =>
    by_cases hc : p c
    · simp [runs, hc, ih]
    · simp [runs, hc]

/-- **A one-line expression does not look beyond the line.** -/
theorem outcomes_line (s : List Char) {r : Regex} {l : List Char} (hr : r.oneLine)
    (hl : '\n' ∉ l) :
    r.outcomes (l ++ '\n' :: s) = (r.outcomes l).map fun o => (o.1, o.2 ++ '\n' :: s) := by
  induction r generalizing l with
  | cls p =>
    cases l with
    | nil => simp_all [outcomes, oneLine]
    | cons c l => by_cases hc : p c <;> simp [outcomes, hc]
  | plus p =>
    simp only [outcomes, runs_line (by simpa [oneLine] using hr), List.map_map]
    rfl
  | eol =>
    cases l with
    | nil => simp [outcomes]
    | cons c l =>
      have hc : c ≠ '\n' := by
        rintro rfl
        simp at hl
      simp [outcomes, hc]
  | seq r t ihr iht =>
    obtain ⟨hr, ht⟩ := Bool.and_eq_true_iff.1 hr
    simp only [outcomes, ihr hr hl, List.flatMap_map, List.map_flatMap, List.map_map]
    refine List.flatMap_congr ?_
    rintro ⟨g, rest⟩ ho
    -- what `r` leaves is a part of the line, so `t` stays inside it too
    obtain ⟨w, rfl, -⟩ := mem_outcomes.1 ho
    rw [iht ht fun h => hl (by simp [h]), List.map_map]
    rfl
  | alt r t ihr iht =>
    obtain ⟨hr, ht⟩ := Bool.and_eq_true_iff.1 hr
    simp only [outcomes, ihr hr hl, iht ht hl, List.map_append]
  | grp r ih =>
    simp only [outcomes, ih hr hl, List.map_map]
    refine List.map_congr_left ?_
    rintro ⟨g, rest⟩ ho
    obtain ⟨w, rfl, -⟩ := mem_outcomes.1 ho
    simp

theorem findAllFrom_line {r : Regex} (hr : r.oneLine) (h0 : r.outcomes [] = []) (s : List Char)
    {l : List Char} {k : ℕ} (hl : '\n' ∉ l) (hk : k ≤ l.length) :
    r.findAllFrom k (l ++ '\n' :: s) = r.findAllFrom k l ++ r.findAll s := by
  induction l generalizing k with
  | nil =>
    obtain rfl : k = 0 := by simpa using hk
    have := outcomes_line s (l := []) hr (by simp)
    simp only [List.nil_append, h0, List.map_nil] at this
    simp [findAllFrom, this, h0, findAll]
  | cons c l ih =>
    have hl' : '\n' ∉ l := fun h => hl (by simp [h])
    cases k with
    | succ k => simpa [findAllFrom] using ih hl' (show k ≤ l.length by simpa using hk)
    | zero =>
      have ho := outcomes_line s hr hl
      rw [List.cons_append] at ho
      rw [List.cons_append, findAllFrom, findAllFrom, ho, List.head?_map]
      rcases (r.outcomes (c :: l)).head? with _ | ⟨g, rest⟩
      · exact ih hl' (Nat.zero_le _)
      · -- the characters to skip after a match are the same with the further lines
        have hk : (l ++ '\n' :: s).length - (rest ++ '\n' :: s).length =
            l.length - rest.length := by
          simp only [List.length_append]; omega
        simp only [Option.map_some, hk, List.cons_append]
        rw [ih hl' (Nat.sub_le ..)]

/-- The text of a first line and further ones. -/
def unlines : List Char → List (List Char) → List Char
  | l, [] => l
  | l, m :: ls => l ++ '\n' :: unlines m ls

theorem unlines_newline (l : List Char) (ls : List (List Char)) :
    unlines l ls ++ ['\n'] = l ++ '\n' :: ls.flatMap (· ++ ['\n']) := by
  induction ls generalizing l with
  | nil => simp [unlines]
  | cons m ls ih => simp [unlines, ih m]

/-- **A one-line expression is found line by line**, whether the last line ends
    with a line feed or with the text. -/
theorem findAll_unlines {r : Regex} (hr : r.oneLine) (h0 : r.outcomes [] = [])
    {l : List Char} {ls : List (List Char)} (h : ∀ m ∈ l :: ls, '\n' ∉ m) :
    r.findAll (unlines l ls) = (l :: ls).flatMap r.findAll ∧
      r.findAll (unlines l ls ++ ['\n']) = (l :: ls).flatMap r.findAll := by
  induction ls generalizing l with
  | nil =>
    have hnil : r.findAll [] = [] := by simp [findAll, findAllFrom, h0]
    have := findAllFrom_line hr h0 [] (h l (by simp)) (Nat.zero_le _)
    refine ⟨by simp [unlines], ?_⟩
    rw [unlines, findAll, this, hnil, List.append_nil, List.flatMap_singleton]
  | cons m ls ih =>
    obtain ⟨h₁, h₂⟩ := ih fun x hx => h x (.tail _ hx)
    have hline := fun s => findAllFrom_line hr h0 s (h l (by simp)) (Nat.zero_le _)
    constructor
    · rw [unlines, findAll, hline, h₁]; rfl
    · rw [unlines, List.append_assoc, List.cons_append, findAll, hline, h₂]; rfl

/-- Every match goes to the end of a line. -/
def ToEol (r : Regex) : Prop :=
  ∀ {w g rest}, r.Matches w g rest → rest = [] ∨ rest.head? = some '\n'

theorem ToEol.rest_nil {r : Regex} (h : r.ToEol) {s w rest : List Char} {g : List (List Char)}
    (hs : '\n' ∉ s) (e : s = w ++ rest) (hm : r.Matches w g rest) : rest = [] := by
  rcases h hm with h | h
  · exact h
  · exact absurd (e ▸ List.mem_append_right w (List.mem_of_head? h)) hs

/-- A line that matches as a whole is found as a whole. -/
theorem ToEol.findAll_eq {r : Regex} (h : r.ToEol) (h0 : r.outcomes [] = []) {s : List Char}
    {g₀ : List (List Char)} (hs : '\n' ∉ s) (hm : r.Matches s g₀ []) :
    ∃ g, r.Matches s g [] ∧ (r.outcomes s).head? = some (g, []) ∧ r.findAll s = [g] := by
  have hne : s ≠ [] := by
    rintro rfl
    have : (g₀, []) ∈ r.outcomes [] := mem_outcomes.2 ⟨[], rfl, hm⟩
    simp [h0] at this
  obtain ⟨⟨g, rest⟩, ho⟩ := exists_head?_outcomes hm
  rw [List.append_nil] at ho
  obtain ⟨w, e, hw⟩ := mem_outcomes.1 (List.mem_of_head? ho)
  obtain rfl := h.rest_nil hs e hw
  obtain rfl : s = w := by simpa using e
  exact ⟨g, hw, ho, by rw [findAll_of_head? hne ho]; simp [findAll, findAllFrom, h0]⟩

/-- Nothing is found in a line no end of which matches. -/
theorem ToEol.findAll_eq_nil {r : Regex} (h : r.ToEol) {s : List Char} (hs : '\n' ∉ s)
    (hm : ∀ t g, t <:+ s → ¬ r.Matches t g []) : r.findAll s = [] := by
  refine findAll_of_outcomes_nil fun t ht => ?_
  refine List.eq_nil_iff_forall_not_mem.2 fun ⟨g, rest⟩ ho => ?_
  obtain ⟨w, e, hw⟩ := mem_outcomes.1 ho
  obtain rfl := h.rest_nil (fun hn => hs (ht.subset hn)) e hw
  exact hm w g (by simpa [e] using ht) hw

/-- A leading line feed changes nothing. -/
theorem findAll_newline {r : Regex} (hr : r.oneLine) (h0 : r.outcomes [] = []) (s : List Char) :
    r.findAll ('\n' :: s) = r.findAll s := by
  have := findAllFrom_line hr h0 s (l := []) (by simp) (Nat.zero_le _)
  simpa [findAll, findAllFrom, h0] using this

/-! ## Paragraphs -/

/-- `\n\n` -/
def blankLine : Regex := chr '\n' ++ chr '\n'

@[simp] theorem outcomes_blankLine (s : List Char) :
    blankLine.outcomes ('\n' :: '\n' :: s) = [([], s)] := rfl

theorem outcomes_blankLine_ne {c : Char} (s : List Char) (h : c ≠ '\n') :
    blankLine.outcomes (c :: s) = [] := by
  change (outcomes (chr '\n') (c :: s)).flatMap _ = []
  simp [chr, outcomes, h]

theorem outcomes_newline_ne {c : Char} (s : List Char) (h : c ≠ '\n') :
    blankLine.outcomes ('\n' :: c :: s) = [] := by
  change (outcomes (chr '\n') ('\n' :: c :: s)).flatMap _ = []
  simp [chr, outcomes, h]

theorem split_line (s : List Char) {l : List Char} (h : '\n' ∉ l) :
    blankLine.split (l ++ s) = (blankLine.split s).modifyHead (l ++ ·) := by
  induction l with
  | nil => simp [show (fun x : List Char => x) = id from rfl]
  | cons c l ih =>
    have hc : c ≠ '\n' := fun e => h (by simp [e])
    have ih := ih fun e => h (by simp [e])
    rw [split] at ih
    rw [List.cons_append, split, splitFrom, outcomes_blankLine_ne _ hc, List.head?_nil, ih,
      List.modifyHead_modifyHead]
    rfl

/-- A line feed in front of a line with something on it does not split. -/
theorem split_newline (s : List Char) {c : Char} (h : c ≠ '\n') :
    blankLine.split ('\n' :: c :: s) = (blankLine.split (c :: s)).modifyHead ('\n' :: ·) := by
  rw [split, splitFrom, outcomes_newline_ne s h]
  rfl

/-- **A paragraph, lines with something on them, is not split.** -/
theorem split_unlines (s : List Char) {l : List Char} {ls : List (List Char)}
    (h : ∀ m ∈ l :: ls, '\n' ∉ m) (hne : ∀ m ∈ ls, m ≠ []) :
    blankLine.split (unlines l ls ++ s) = (blankLine.split s).modifyHead (unlines l ls ++ ·) := by
  induction ls generalizing l with
  | nil => exact split_line s (h l (by simp))
  | cons m ls ih =>
    have ih := ih (fun x hx => h x (.tail _ hx)) fun x hx => hne x (.tail _ hx)
    obtain ⟨c, u, hc, hu⟩ : ∃ c u, c ≠ '\n' ∧ unlines m ls ++ s = c :: u := by
      obtain ⟨c, m, rfl⟩ := List.exists_cons_of_ne_nil (hne m (by simp))
      have hc : c ≠ '\n' := fun e => h (c :: m) (by simp) (by simp [e])
      cases ls with
      | nil => exact ⟨c, _, hc, rfl⟩
      | cons n ls => exact ⟨c, _, hc, rfl⟩
    rw [unlines, List.append_assoc, List.cons_append, split_line _ (h l (by simp)), hu,
      split_newline u hc, ← hu, ih, List.modifyHead_modifyHead, List.modifyHead_modifyHead]
    congr 1
    funext x
    simp

@[simp] theorem split_blankLine (s : List Char) :
    blankLine.split ('\n' :: '\n' :: s) = [] :: blankLine.split s := by
  rw [split, splitFrom, outcomes_blankLine]
  simp [splitFrom]

end Regex
