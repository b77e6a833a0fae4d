/-
  The output of an analysis, read back.

  `readSheet` takes a text apart at its line feeds, blank lines, tabs and
  commas, and drops the padding and the commas of the numbers.

  * `readSheet_text`: the text of a sheet is read as that sheet.
  * `analyze_conserves`: in what is read of an analysis the total is the sum of
    the sizes of the records, of the numbers of the groups and of the sizes of
    the traces.
-/
import Raphael.Analysis

namespace Raphael.Script

open Regex Sorting

/-! ## Reading -/

/-- A number that may be padded with blanks and have commas in it. -/
def readNumber (s : List Char) : Option ℕ := int (s.filter fun c => c ≠ ' ' && c ≠ ',')

/-- A number, a tab and a name. -/
def readGroup (line : List Char) : Option Group :=
  match line.dropWhile (· ≠ '\t') with
  | [] => none
  | _ :: name => (readNumber (line.takeWhile (· ≠ '\t'))).map (name, ·)

/-- A line with one frame. -/
def readFrame (line : List Char) : Option Frame :=
  match frameRe.findAll line with
  | [g] => some (Frame.ofMatch g)
  | _ => none

/-- An address, a size and a count, and a frame on each further line. -/
def readTrace : List (List Char) → Option Trace
  | [] => none
  | header :: frames =>
    match header.splitOn ',' with
    | [id, size, count] => do
      return ⟨id, ← readNumber size, ← readNumber count, ← frames.mapM readFrame⟩
    | _ => none

/-- The lines up to the first blank one are for the total and the groups; behind
    each blank line follows a trace. -/
def readSheet (text : List Char) : Option Sheet :=
  match (text.splitOn '\n').dropLast.splitOn [] with
  | (line :: groups) :: traces => do
    let (name, totals) ← readGroup line
    if name = "totals".toList then
      return ⟨totals, ← groups.mapM readGroup, ← traces.mapM readTrace⟩
    else none
  | _ => none

/-! ## Lines -/

/-- Lines that end with a line feed. -/
def endLines (ls : List (List Char)) : List Char := ls.flatMap (· ++ ['\n'])

theorem splitOn_endLines {ls : List (List Char)} (h : ∀ l ∈ ls, '\n' ∉ l) :
    (endLines ls).splitOn '\n' = ls ++ [[]] := by
  induction ls with
  | nil => rfl
  | cons l ls ih =>
    obtain ⟨hl, h⟩ := List.forall_mem_cons.1 h
    have e : endLines (l :: ls) = l ++ '\n' :: endLines ls := by simp [endLines]
    rw [e, List.splitOn_append_cons_self_of_not_mem hl, ih h]
    rfl

/-- Paragraphs, each behind a blank line but the first. -/
theorem splitOn_paragraphs {p : List (List Char)} {ps : List (List (List Char))}
    (hp : [] ∉ p) (hps : ∀ q ∈ ps, [] ∉ q) :
    (p ++ ps.flatMap ([] :: ·)).splitOn [] = p :: ps := by
  induction ps generalizing p with
  | nil =>
    rw [List.flatMap_nil, List.append_nil]
    exact List.splitOn_eq_singleton hp
  | cons q ps ih =>
    obtain ⟨hq, hps⟩ := List.forall_mem_cons.1 hps
    have e : p ++ (q :: ps).flatMap ([] :: ·) = p ++ [] :: (q ++ ps.flatMap ([] :: ·)) := by simp
    rw [e, List.splitOn_append_cons_self_of_not_mem hp, ih hq hps]

section numbers
variable (n : ℕ)

theorem filter_toDigits : (Nat.toDigits 10 n).filter (fun c => c ≠ ' ' && c ≠ ',') =
    Nat.toDigits 10 n := by
  rw [List.filter_eq_self]
  intro c hc
  have hd := isDigit_toDigits n c hc
  have hs : c ≠ ' ' := by rintro rfl; exact absurd hd (by decide)
  have hk : c ≠ ',' := by rintro rfl; exact absurd hd (by decide)
  simp [hs, hk]

/-- The size or the count of a trace. -/
theorem readNumber_toDigits : readNumber (' ' :: Nat.toDigits 10 n) = some n := by
  rw [readNumber, List.filter_cons_of_neg (by simp), filter_toDigits, int_toDigits]

theorem mem_thousands {c : Char} (h : c ∈ thousands n) : c = ',' ∨ c.isDigit := by
  by_cases hc : c = ','
  · exact Or.inl hc
  · have hm : c ∈ (thousands n).filter (· ≠ ',') := List.mem_filter.2 ⟨h, by simpa using hc⟩
    rw [thousands_filter] at hm
    exact Or.inr (isDigit_toDigits n c hm)

/-- The number of a group. -/
theorem readNumber_thousands : readNumber ((thousands n).leftpad 13 ' ') = some n := by
  have hfilter : ((thousands n).leftpad 13 ' ').filter (fun c => c ≠ ' ' && c ≠ ',') =
      ((thousands n).filter (· ≠ ',')).filter (fun c => c ≠ ' ' && c ≠ ',') := by
    rw [List.leftpad, List.filter_append, List.filter_filter]
    have hpad : (List.replicate (13 - (thousands n).length) ' ').filter
        (fun c => c ≠ ' ' && c ≠ ',') = [] := by
      simp
    rw [hpad, List.nil_append]
    refine List.filter_congr fun c _ => ?_
    cases decide (c ≠ ' ') <;> cases decide (c ≠ ',') <;> rfl
  rw [readNumber, hfilter, thousands_filter, filter_toDigits, int_toDigits]

theorem not_mem_number {c : Char} (hs : c ≠ ' ') (hk : c ≠ ',') (hd : c.isDigit = false) :
    c ∉ (thousands n).leftpad 13 ' ' := by
  rw [List.leftpad, List.mem_append, List.mem_replicate]
  rintro (⟨-, rfl⟩ | h)
  · exact hs rfl
  · rcases mem_thousands n h with rfl | h
    · exact hk rfl
    · rw [hd] at h
      cases h

end numbers

/-! ## Groups and traces -/

/-- What is written item by item is read item by item. -/
theorem mapM_map {α β : Type*} {write : α → β} {read : β → Option α} {l : List α}
    (h : ∀ a ∈ l, read (write a) = some a) : (l.map write).mapM read = some l := by
  induction l with
  | nil => rfl
  | cons a l ih =>
    obtain ⟨ha, h⟩ := List.forall_mem_cons.1 h
    simp [ha, ih h]

/-- The line of a group, without the line feed. -/
def Group.line (g : Group) : List Char := (thousands g.2).leftpad 13 ' ' ++ '\t' :: g.1

theorem Group.read_line (g : Group) : readGroup g.line = some g := by
  have htab : ∀ c ∈ (thousands g.2).leftpad 13 ' ', decide (c ≠ '\t') = true := by
    intro c hc
    have hne : c ≠ '\t' := by
      rintro rfl
      exact not_mem_number g.2 (by decide) (by decide) (by decide) hc
    simpa using hne
  rw [readGroup, Group.line, List.dropWhile_append_of_pos htab, List.takeWhile_append_of_pos htab,
    List.dropWhile_cons_of_neg (by simp), List.takeWhile_cons_of_neg (by simp), List.append_nil,
    readNumber_thousands]
  rfl

theorem Group.line_oneLine {g : Group} (h : '\n' ∉ g.1) : '\n' ∉ g.line := by
  rw [Group.line, List.mem_append, List.mem_cons]
  rintro (hn | hn | hn)
  · exact not_mem_number g.2 (by decide) (by decide) (by decide) hn
  · exact absurd hn (by decide)
  · exact h hn

theorem Group.line_ne_nil (g : Group) : g.line ≠ [] := by simp [Group.line]

/-- The line of the frame is read as the frame. -/
structure Frame.Readable (f : Frame) : Prop where
  oneLine : '\n' ∉ f.text
  read : readFrame f.text = some f

structure Trace.Readable (t : Trace) : Prop where
  id : ∃ w, t.id = addrText w
  stack : ∀ f ∈ t.stack, f.Readable

structure Sheet.Readable (s : Sheet) : Prop where
  groups : ∀ g ∈ s.groups, '\n' ∉ g.1
  traces : ∀ t ∈ s.traces, t.Readable

/-- The first line of a trace. -/
def Trace.header (t : Trace) : List Char :=
  t.id ++ ',' :: ' ' :: (Nat.toDigits 10 t.size ++ ',' :: ' ' :: Nat.toDigits 10 t.count)

/-- The lines of a trace, without the blank one. -/
def Trace.lines (t : Trace) : List (List Char) := t.header :: t.stack.map Frame.text

theorem Trace.text_eq (t : Trace) : t.text = endLines ([] :: t.lines) := by
  simp [Trace.text, endLines, Trace.lines, Trace.header, List.flatMap_map]

section traces
variable {t : Trace}

theorem not_mem_toDigits (n : ℕ) {c : Char} (hc : c.isDigit = false) : c ∉ Nat.toDigits 10 n := by
  intro h
  rw [isDigit_toDigits n c h] at hc
  cases hc

theorem Trace.Readable.not_mem_id (h : t.Readable) {c : Char} (hc : hexDigit c = false)
    (hx : c.toLower ≠ 'x') : c ∉ t.id := by
  obtain ⟨w, e⟩ := h.id
  rw [e]
  exact not_mem_addrText w hc hx

theorem Trace.Readable.read_lines (h : t.Readable) : readTrace t.lines = some t := by
  have hid : ',' ∉ t.id := h.not_mem_id (by decide) (by decide)
  have hsize : ',' ∉ ' ' :: Nat.toDigits 10 t.size := by simp [not_mem_toDigits]
  have hcount : ',' ∉ ' ' :: Nat.toDigits 10 t.count := by simp [not_mem_toDigits]
  have hsplit : t.header.splitOn ',' =
      [t.id, ' ' :: Nat.toDigits 10 t.size, ' ' :: Nat.toDigits 10 t.count] := by
    rw [Trace.header, List.splitOn_append_cons_self_of_not_mem hid, ← List.cons_append,
      List.splitOn_append_cons_self_of_not_mem hsize, List.splitOn_eq_singleton hcount]
  have hframes : (t.stack.map Frame.text).mapM readFrame = some t.stack :=
    mapM_map fun f hf => (h.stack f hf).read
  rw [Trace.lines, readTrace, hsplit]
  simp [readNumber_toDigits, hframes]

theorem Trace.Readable.oneLine (h : t.Readable) : ∀ l ∈ t.lines, '\n' ∉ l := by
  refine List.forall_mem_cons.2 ⟨?_, List.forall_mem_map.2 fun f hf => (h.stack f hf).oneLine⟩
  have hid : '\n' ∉ t.id := h.not_mem_id (by decide) (by decide)
  simp [Trace.header, hid, not_mem_toDigits]

theorem Trace.lines_ne_nil (t : Trace) : [] ∉ t.lines := by
  simp [Trace.lines, Trace.header, Frame.text]

end traces

/-! ## Sheets -/

/-- The lines for the total and for the groups. -/
def Sheet.head (s : Sheet) : List (List Char) :=
  Group.line ("totals".toList, s.totals) :: s.groups.map Group.line

theorem Sheet.text_eq (s : Sheet) :
    s.text = endLines (s.head ++ (s.traces.map Trace.lines).flatMap ([] :: ·)) := by
  have hgroup : Group.text = fun g => g.line ++ ['\n'] := by
    funext g
    simp [Group.text, Group.line]
  have htrace : Trace.text = fun t => endLines ([] :: t.lines) := funext Trace.text_eq
  simp [Sheet.text, Sheet.head, endLines, hgroup, htrace, List.flatMap_map, List.flatMap_assoc]

/-- **The text of a sheet is read as the sheet.** -/
theorem readSheet_text {s : Sheet} (h : s.Readable) : readSheet s.text = some s := by
  have hhead : ∀ l ∈ s.head, '\n' ∉ l := by
    have htotals : '\n' ∉ "totals".toList := by decide
    refine List.forall_mem_cons.2 ⟨Group.line_oneLine htotals, ?_⟩
    exact List.forall_mem_map.2 fun g hg => Group.line_oneLine (h.groups g hg)
  have hlines : ∀ l ∈ s.head ++ (s.traces.map Trace.lines).flatMap ([] :: ·), '\n' ∉ l := by
    intro l hl
    rcases List.mem_append.1 hl with hl | hl
    · exact hhead l hl
    · simp only [List.flatMap_map, List.mem_flatMap, List.mem_cons] at hl
      obtain ⟨t, ht, rfl | hl⟩ := hl
      exacts [List.not_mem_nil, (h.traces t ht).oneLine l hl]
  have hne : [] ∉ s.head := by
    rw [Sheet.head, List.mem_cons, List.mem_map]
    rintro (hnil | ⟨g, -, hnil⟩)
    · exact Group.line_ne_nil _ hnil.symm
    · exact g.line_ne_nil hnil
  have hparagraphs := splitOn_paragraphs hne
    (List.forall_mem_map.2 fun t (_ : t ∈ s.traces) => t.lines_ne_nil)
  have hgroups : (s.groups.map Group.line).mapM readGroup = some s.groups :=
    mapM_map fun g _ => g.read_line
  have htraces : (s.traces.map Trace.lines).mapM readTrace = some s.traces :=
    mapM_map fun t ht => (h.traces t ht).read_lines
  rw [readSheet, s.text_eq, splitOn_endLines hlines, List.dropLast_concat, hparagraphs, Sheet.head]
  simp [Group.read_line, hgroups, htraces]

/-! ## The sheet of a report -/

/-- What is read of a record can be read again. -/
theorem readable_trace (b : Printed) : b.trace.Readable := by
  refine ⟨⟨b.addr, rfl⟩, fun f hf => ?_⟩
  obtain ⟨l, hl, hf⟩ := List.mem_flatMap.1 hf
  rcases (b.printable l hl).read_eq with ⟨-, f', hread, hs⟩ | ⟨-, hread⟩
  · rw [hread, List.mem_singleton] at hf
    subst hf
    obtain ⟨g, hg, rfl⟩ := List.map_eq_singleton_iff.1 hread
    refine ⟨hs.text ▸ (b.printable l hl).oneLine, ?_⟩
    rw [hs.text, readFrame, hg]
  · rw [hread] at hf
    cases hf

/-- The name of a group is on one line. -/
theorem Trace.Readable.group (h : t.Readable) : '\n' ∉ groupRecord t := by
  rcases groupRecord_cases t with e | ⟨f, hf, hg, -⟩
  · rw [e]
    decide
  · have hpath : '\n' ∉ f.path := by
      intro hmem
      exact (h.stack f hf).oneLine (by simp [Frame.text, hmem])
    obtain ⟨⟨g, rest⟩, ho, e⟩ := Option.map_eq_some_iff.1 hg
    obtain ⟨w, hw, hmatch⟩ := mem_outcomes.1 (List.mem_of_mem_head? ho)
    rw [← e]
    cases g with
    | nil => exact List.not_mem_nil
    | cons x g =>
      intro hmem
      have hx : '\n' ∈ w := (hmatch.isInfix x List.mem_cons_self).subset hmem
      exact hpath (by rw [hw]; exact List.mem_append_left rest hx)

/-- **An analysis of a report conserves its totals**, whatever the sorts do. -/
theorem analyze_conserves (S T : ListSort) (b : Printed) (bs : List Printed) :
    ∃ text s, analyze S T ((b :: bs).flatMap Printed.text) = some text ∧
      readSheet text = some s ∧ Conserves (b :: bs) s := by
  have hne : (b :: bs).map Printed.trace ≠ [] := by simp
  have hcount : ∀ t ∈ (b :: bs).map Printed.trace, t.count = 1 := by
    intro t ht
    obtain ⟨b', -, rfl⟩ := List.mem_map.1 ht
    rfl
  obtain ⟨out, hmerge, hsize, hnumber, hfrom⟩ := mergeReport_totals S hne hcount
  obtain ⟨s, hprint, hs, hbal⟩ := printReport_eq T out
  have htraces : ∀ t ∈ s.traces, t.Readable := by
    intro t ht
    obtain ⟨t', ht', hid, hstack⟩ := hfrom t (hs.mem_iff.1 ht)
    obtain ⟨b', -, rfl⟩ := List.mem_map.1 ht'
    exact ⟨hid ▸ (readable_trace b').id, hstack ▸ (readable_trace b').stack⟩
  have hgroups : ∀ g ∈ s.groups, '\n' ∉ g.1 := by
    intro g hg
    obtain ⟨t, ht, e⟩ := (hbal.named g.1).1 (List.mem_map_of_mem hg)
    rw [← e]
    exact (htraces t ht).group
  refine ⟨s.text, s, ?_, readSheet_text ⟨hgroups, htraces⟩, hbal, ?_, ?_⟩
  · rw [analyze, parseReport_eq, Option.bind_eq_bind, Option.bind_some, hmerge]
    exact hprint
  · rw [← hbal.sizes, (hs.map Trace.size).sum_nat, hsize, List.map_map]
    rfl
  · rw [(hs.map Trace.count).sum_nat, hnumber, List.length_map]

end Raphael.Script
