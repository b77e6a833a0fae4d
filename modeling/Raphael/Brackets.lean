/-
  Where `parse_report` (raphael.py) cuts a line: the path and the text in the
  brackets.

  A frame line has no quotes.  Of all the ways to cut it the expression takes the
  one with the longest path (`read_longest`), so the text in the brackets comes
  out as it was printed iff the symbol has no blank with an opening bracket
  behind it (`frames_cut_iff`).
-/
import Raphael.Parse

namespace Raphael

open Regex Script

/-! ## Cuts -/

/-- ` (` -/
def opening : List Char := [' ', '(']

/-- What follows the address of a line, cut into a path and a text in
    brackets. -/
structure Cut (u path desc : List Char) : Prop where
  eq : u = path ++ ' ' :: '(' :: (desc ++ [')'])
  path : Run dot path
  desc : Run dot desc

namespace Cut
variable {u p d p' d' : List Char}

theorem unique (h : Cut u p d) (h' : Cut u p' d') (hlen : p.length = p'.length) :
    p = p' ∧ d = d' := by
  obtain ⟨rfl, e⟩ := List.append_inj (h.eq.symm.trans h'.eq) hlen
  simp only [List.cons.injEq, true_and, List.append_cancel_right_eq] at e
  exact ⟨rfl, e⟩

/-- A cut further behind is one inside the brackets. -/
theorem inside (h : Cut u p d) (h' : Cut u p' d') (hlen : p.length < p'.length) :
    ∃ x, d = x ++ opening ++ d' := by
  obtain ⟨e, rfl, he⟩ | ⟨e, rfl, -⟩ := List.append_eq_append_iff.1 (h.eq.symm.trans h'.eq)
  · rcases e with _ | ⟨c, _ | ⟨c', x⟩⟩
    · simp at hlen
    · simp at he
    · simp only [List.cons_append, List.cons.injEq] at he
      refine ⟨x, List.append_cancel_right (he.2.2.trans ?_)⟩
      simp [opening]
  · rw [List.length_append] at hlen
    omega

/-- A bracket that opens inside gives a cut further behind. -/
theorem further {x : List Char} (h : Cut u p (x ++ opening ++ d)) (hd : d ≠ []) :
    Cut u (p ++ opening ++ x) d := by
  have hall : ∀ c ∈ x ++ opening ++ d, dot c := h.desc.all
  refine ⟨by simp [h.eq, opening], ⟨by simp [opening], fun c hc => ?_⟩, hd, fun c hc => ?_⟩
  · simp only [List.mem_append] at hc
    rcases hc with (hc | hc) | hc
    · exact h.path.all c hc
    · exact hall c (by simp [hc])
    · exact hall c (by simp [hc])
  · exact hall c (by simp [hc])

/-- **The path is the longest one** iff no bracket opens inside. -/
theorem longest_iff (h : Cut u p d) : (∀ p' d', Cut u p' d' → p'.length ≤ p.length) ↔
    ∀ x y, d = x ++ opening ++ y → y = [] := by
  constructor
  · intro hmax x y e
    subst e
    by_contra hy
    have hle := hmax _ _ (h.further hy)
    have htwo : opening.length = 2 := rfl
    rw [List.length_append, List.length_append] at hle
    omega
  · intro hnone p' d' h'
    by_contra hlen
    obtain ⟨x, e⟩ := h.inside h' (Nat.lt_of_not_le hlen)
    exact h'.desc.ne_nil (hnone x d' e)

end Cut

/-! ## The cut of the expression -/

/-- `\ \((.+)\)$` -/
def tailRe : Regex := chr ' ' ++ (chr '(' ++ (grp (plus dot) ++ (chr ')' ++ eol)))

theorem frameRe_outcomes (s : List Char) :
    frameRe.outcomes s = (addrRe ++ chr ' ' ++ (grp (plus dot) ++ tailRe)).outcomes s := by
  simp only [frameRe, tailRe, outcomes_assoc]

theorem tailRe_matches {w : List Char} {g : List (List Char)} : tailRe.Matches w g [] ↔
    ∃ d, Run dot d ∧ w = ' ' :: '(' :: (d ++ [')']) ∧ g = [d] := by
  simp [tailRe]

/-- **The reader takes the longest path.** -/
theorem Line.Printable.read_longest {l : Line} (h : l.Printable) {u p d : List Char}
    (e : l.body = addrText l.pc ++ ' ' :: u) (hcut : Cut u p d) :
    ∃ p₀ d₀, l.read = [⟨addrText l.pc, p₀, d₀⟩] ∧ Cut u p₀ d₀ ∧
      ∀ p' d', Cut u p' d' → p'.length ≤ p₀.length := by
  have hm : frameRe.Matches l.body [addrText l.pc, p, d] [] :=
    frameRe_matches.2 ⟨d, p, _, isAddr_addrText _, hcut.path, hcut.desc, .inl rfl,
      by rw [e, hcut.eq], rfl⟩
  obtain ⟨g, -, ho, hf⟩ := frameRe_toEol.findAll_eq frameRe_nil h.oneLine hm
  rw [frameRe_outcomes] at ho
  obtain ⟨l₁, ⟨g₁, u'⟩, l₂, g', hl, -, hq, rfl⟩ := head?_append ho
  -- the address ends at the first blank
  have hmem : (g₁, u') ∈ (addrRe ++ chr ' ').outcomes l.body := by simp [hl]
  obtain ⟨w, hw, hmatch⟩ := mem_outcomes.1 hmem
  simp only [matches_append, matches_chr, addrRe_matches] at hmatch
  obtain ⟨a, _, _, _, ⟨ha, rfl⟩, ⟨rfl, rfl⟩, rfl, rfl⟩ := hmatch
  rw [e, List.append_assoc] at hw
  obtain ⟨rfl, rfl⟩ := before (not_mem_addrText _ (by decide) (by decide))
    (ha.not_mem (by decide) (by decide)) hw
  -- the path is the longest run that the rest of the expression can follow
  obtain ⟨p₀, v, g'', rfl, hp₀, hv, rfl, hmax⟩ := head?_run hq
  obtain ⟨w, hw, hmatch⟩ := mem_outcomes.1 (List.mem_of_head? hv)
  rw [List.append_nil] at hw
  subst hw
  obtain ⟨d₀, hd₀, rfl, rfl⟩ := tailRe_matches.1 hmatch
  refine ⟨p₀, d₀, by rw [Line.read, hf]; rfl, ⟨rfl, hp₀, hd₀⟩, fun p' d' h' => ?_⟩
  have hin : ([d'], []) ∈ tailRe.outcomes (' ' :: '(' :: (d' ++ [')'])) :=
    mem_outcomes.2 ⟨_, (List.append_nil _).symm, tailRe_matches.2 ⟨d', h'.desc, rfl, rfl⟩⟩
  exact hmax p' _ h'.eq h'.path (List.ne_nil_of_mem hin)

/-! ## Lines -/

namespace Line

/-- The symbol that is printed, if there is one. -/
def symbol : Line → List Char
  | unknown _ | anonymous _ _ | file _ _ => []
  | fileName _ _ symbol | fileNameLine _ _ symbol _ => symbol

end Line

/-- A blank with a bracket behind it is in the first of two texts, if the second
    one has no brackets. -/
theorem opens_append {s t : List Char} (ht : '(' ∉ t) : opening <:+: s ++ t ↔ opening <:+: s := by
  refine ⟨?_, fun h => h.trans (List.prefix_append s t).isInfix⟩
  rintro ⟨x, y, e⟩
  obtain ⟨c, hs, -⟩ | ⟨c, hc, hy⟩ := List.append_eq_append_iff.1 e
  · exact ⟨x, c, hs.symm⟩
  · rcases List.eq_nil_or_concat c with rfl | ⟨c, z, rfl⟩
    · exact ⟨x, [], by simpa using hc⟩
    · have hz := congrArg List.getLast? hc
      simp [opening] at hz
      exact absurd (by simp [hy, ← hz]) ht

section frame
variable {l : Line} {f : Frame}

/-- The symbol is printed with a text without brackets behind it. -/
theorem Line.frame_desc (hf : l.frame = some f) :
    ∃ t, f.desc = l.symbol ++ t ∧ '(' ∉ t ∧ t ≠ [] := by
  cases l with
  | unknown | anonymous => simp [frame, parts] at hf
  | file pc path =>
    obtain rfl := Option.some.inj hf
    exact ⟨_, rfl, by decide, by decide⟩
  | fileName pc path symbol =>
    obtain rfl := Option.some.inj hf
    exact ⟨_, rfl, by decide, by decide⟩
  | fileNameLine pc path symbol offset =>
    obtain rfl := Option.some.inj hf
    refine ⟨_, List.append_assoc .., ?_, by simp⟩
    simp [not_mem_dec offset (c := '(') (by decide)]

/-- Inside the brackets another one opens iff it does in the symbol. -/
theorem Line.frame_opens (hf : l.frame = some f) :
    (∀ x y, f.desc = x ++ opening ++ y → y = []) ↔ ¬ opening <:+: l.symbol := by
  obtain ⟨t, e, ht, hne⟩ := frame_desc hf
  rw [e]
  constructor
  · rintro h ⟨x, y, hs⟩
    have := h x (y ++ t) (by rw [← hs, List.append_assoc _ y t])
    exact hne (List.append_eq_nil_iff.1 this).2
  · intro hnone x y hxy
    exact absurd ((opens_append ht).1 ⟨x, y, hxy.symm⟩) hnone

/-- **A line is read as the frame that was printed** iff its symbol has no blank
    with an opening bracket behind it. -/
theorem Line.Printable.read_frame_iff (h : l.Printable) (hf : l.frame = some f) :
    ∃ f', l.read = [f'] ∧ (f' = f ↔ ¬ opening <:+: l.symbol) := by
  obtain ⟨hpc, hp, hd, e⟩ := h.body_eq hf
  have hcut : Cut (f.path ++ ' ' :: '(' :: (f.desc ++ [')'])) f.path f.desc := ⟨rfl, hp, hd⟩
  rw [hpc] at e
  obtain ⟨p, d, hread, hcut', hmax⟩ := h.read_longest e hcut
  refine ⟨_, hread, ?_⟩
  rw [← frame_opens hf, ← hcut.longest_iff]
  constructor
  · rintro rfl
    exact hmax
  · intro hlong
    obtain ⟨rfl, rfl⟩ := hcut'.unique hcut (Nat.le_antisymm (hlong _ _ hcut') (hmax _ _ hcut))
    rw [← hpc]

end frame

/-! ## Reports -/

/-- **Reading a report back** gives one frame for each line that names a file, in
    the order of the lines, and that frame is the printed one iff the symbol has no
    blank with an opening bracket behind it. -/
theorem frames_cut_iff (b : Printed) (bs : List Printed) :
    ∃ report, parseReport ((b :: bs).flatMap Printed.text) = some report ∧
      List.Forall₂ (fun t b => List.Forall₂ (fun f l => l.frame = some f ↔ ¬ opening <:+: l.symbol)
        t.stack (b.lines.filter Line.named)) report (b :: bs) := by
  refine ⟨_, parseReport_eq b bs, ?_⟩
  rw [List.forall₂_map_left_iff, List.forall₂_same]
  intro b _
  refine forall₂_read fun l hl => ?_
  have hprint := b.printable l hl
  rcases hprint.read_eq with ⟨hn, -⟩ | ⟨hn, hread⟩
  · obtain ⟨f, hf⟩ := Line.named_iff.1 hn
    obtain ⟨f', hread, hiff⟩ := hprint.read_frame_iff hf
    refine .inl ⟨hn, f', hread, ?_⟩
    rw [← hiff, hf, Option.some.injEq, eq_comm]
  · exact .inr ⟨hn, hread⟩

/-- `f(void (*)(int))` in `/a.so` -/
def callback : Line := .fileName 0x10 ['/', 'a', '.', 's', 'o'] "f(void (*)(int))".toList

theorem callback_printable : callback.Printable :=
  ⟨⟨by decide, Line.dot_all (by decide)⟩, by decide⟩

/-- **A symbol with a function pointer** is cut inside. -/
theorem callback_cut : ¬ ∀ (b : Printed) (l : Line) (f : Frame), b.lines = [l] →
    l.frame = some f → ¬ opening <:+: f.path →
      ∃ t, parseReport b.text = some [t] ∧ t.stack = [f] := by
  intro h
  have hlines : ∀ l ∈ [callback], l.Printable := List.forall_mem_singleton.2 callback_printable
  obtain ⟨t, e, ht⟩ := h ⟨0x7000, 4096, [callback], hlines⟩ callback _ rfl rfl (by decide)
  rw [← List.flatMap_singleton Printed.text, parseReport_eq, Option.some.injEq] at e
  obtain ⟨f', hread, hiff⟩ := callback_printable.read_frame_iff rfl
  obtain rfl := (List.cons.inj e).1
  simp only [Printed.trace, List.flatMap_singleton, hread, List.cons.injEq] at ht
  exact hiff.1 ht.1 (by decide)

end Raphael
