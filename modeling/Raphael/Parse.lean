/-
  Reading a report back: `parse_report` (raphael.py) on the text that
  `MemoryCache::print` writes.

  Both expressions of `parse_report` are one-line expressions, so a report is
  read block by block and line by line (`parseReport_eq`).  A block gives a
  trace with the address, size and count of its header, and with one frame for
  each line that names a file.  The lines for code outside any file end without
  a bracket: they do not match, and their frames are lost (`readsBack_iff`).
-/
import Raphael.Store
import Raphael.Lib.Regex

namespace Raphael

open Regex

/-! ## parse_report -/

namespace Script

/-- The Python class `Frame`. -/
structure Frame where
  pc : List Char
  path : List Char
  desc : List Char
  deriving DecidableEq

/-- The Python class `Trace`. -/
structure Trace where
  id : List Char
  size : ℕ
  count : ℕ
  stack : List Frame
  deriving DecidableEq

/-- The zeros of the decimal digits of Unicode, each followed by its one to
    nine. -/
def zeros : List ℕ :=
  [0x30, 0x660, 0x6f0, 0x7c0, 0x966, 0x9e6, 0xa66, 0xae6, 0xb66, 0xbe6, 0xc66, 0xce6, 0xd66,
    0xde6, 0xe50, 0xed0, 0xf20, 0x1040, 0x1090, 0x17e0, 0x1810, 0x1946, 0x19d0, 0x1a80, 0x1a90,
    0x1b50, 0x1bb0, 0x1c40, 0x1c50, 0xa620, 0xa8d0, 0xa900, 0xa9d0, 0xa9f0, 0xaa50, 0xabf0,
    0xff10, 0x104a0, 0x10d30, 0x11066, 0x110f0, 0x11136, 0x111d0, 0x112f0, 0x11450, 0x114d0,
    0x11650, 0x116c0, 0x11730, 0x118e0, 0x11950, 0x11c50, 0x11d50, 0x11da0, 0x16a60, 0x16ac0,
    0x16b50, 0x1d7ce, 0x1d7d8, 0x1d7e2, 0x1d7ec, 0x1d7f6, 0x1e140, 0x1e2f0, 0x1e950, 0x1fbf0]

/-- The value of a decimal digit. -/
def decimal (c : Char) : Option ℕ :=
  (zeros.find? fun z => z ≤ c.toNat ∧ c.toNat < z + 10).map (c.toNat - ·)

/-- `int` of a text of decimal digits; fails on any other text. -/
def int (s : List Char) : Option ℕ :=
  if s = [] then none else s.foldlM (fun n c => (decimal c).map (10 * n + ·)) 0

/-- `[0-9a-f]`, ignoring the case -/
def hexDigit (c : Char) : Bool := c.toLower ∈ "0123456789abcdef".toList

/-- `\d` -/
def digit (c : Char) : Bool := (decimal c).isSome

/-- `.` -/
def dot (c : Char) : Bool := c ≠ '\n'

/-- `(0x[0-9a-f]+)`, ignoring the case -/
def addrRe : Regex := grp (chr '0' ++ cls (·.toLower == 'x') ++ plus hexDigit)

/-- `(0x[0-9a-f]+)\ (.+)\ \((.+)\)$` -/
def frameRe : Regex :=
  addrRe ++ chr ' ' ++ grp (plus dot) ++ chr ' ' ++ chr '(' ++ grp (plus dot) ++ chr ')' ++ eol

/-- `(0x[0-9a-f]+),\ (\d+),\ (\d+)$` -/
def headerRe : Regex :=
  addrRe ++ chr ',' ++ chr ' ' ++ grp (plus digit) ++ chr ',' ++ chr ' ' ++ grp (plus digit) ++ eol

/-- `Frame(frame[0], frame[1], frame[2])` -/
def Frame.ofMatch (g : List (List Char)) : Frame := ⟨g.getD 0 [], g.getD 1 [], g.getD 2 []⟩

/-- The body of the loop of `parse_report`; fails if no header is found. -/
def parseTrace (split : List Char) : Option Trace := do
  let stack := (frameRe.findAll split).map Frame.ofMatch
  let g ← (headerRe.findAll split).head?
  let size ← int (g.getD 1 [])
  let count ← int (g.getD 2 [])
  return ⟨g.getD 0 [], size, count, stack⟩

/-- `parse_report` -/
def parseReport (string : List Char) : Option (List Trace) :=
  (blankLine.split string).mapM parseTrace

end Script

namespace Script

/-! ## What the expressions match -/

/-- The text of an address. -/
def IsAddr (a : List Char) : Prop :=
  ∃ x h, x.toLower = 'x' ∧ Run hexDigit h ∧ a = '0' :: x :: h

theorem addrRe_matches {w : List Char} {g : List (List Char)} {rest : List Char} :
    addrRe.Matches w g rest ↔ IsAddr w ∧ g = [w] := by
  simp only [addrRe, matches_append, matches_chr, Matches, IsAddr, beq_iff_eq]
  constructor
  · rintro ⟨_, ⟨_, h, _, _, ⟨_, _, _, _, ⟨rfl, rfl⟩, ⟨x, hx, rfl, rfl⟩, rfl, rfl⟩, ⟨hh, rfl⟩,
      rfl, rfl⟩, rfl⟩
    exact ⟨⟨x, h, hx, hh, rfl⟩, rfl⟩
  · rintro ⟨⟨x, h, hx, hh, rfl⟩, rfl⟩
    exact ⟨[], ⟨['0', x], h, [], [], ⟨['0'], [x], [], [], ⟨rfl, rfl⟩, ⟨x, hx, rfl, rfl⟩, rfl, rfl⟩,
      ⟨hh, rfl⟩, rfl, rfl⟩, rfl⟩

theorem frameRe_matches {w : List Char} {g : List (List Char)} {rest : List Char} :
    frameRe.Matches w g rest ↔ ∃ d p a, IsAddr a ∧ Run dot p ∧ Run dot d ∧
      (rest = [] ∨ rest.head? = some '\n') ∧
        w = a ++ ' ' :: (p ++ ' ' :: '(' :: (d ++ [')'])) ∧ g = [a, p, d] := by
  simp [frameRe, addrRe_matches, and_assoc]

theorem headerRe_matches {w : List Char} {g : List (List Char)} {rest : List Char} :
    headerRe.Matches w g rest ↔ ∃ m n a, IsAddr a ∧ Run digit n ∧ Run digit m ∧
      (rest = [] ∨ rest.head? = some '\n') ∧
        w = a ++ ',' :: ' ' :: (n ++ ',' :: ' ' :: m) ∧ g = [a, n, m] := by
  simp [headerRe, addrRe_matches, and_assoc]

theorem frameRe_oneLine : frameRe.oneLine := by decide
theorem headerRe_oneLine : headerRe.oneLine := by decide
theorem frameRe_nil : frameRe.outcomes [] = [] := rfl
theorem headerRe_nil : headerRe.outcomes [] = [] := rfl

theorem frameRe_toEol : frameRe.ToEol := by
  intro w g rest h
  obtain ⟨_, _, _, -, -, -, h, -⟩ := frameRe_matches.1 h
  exact h

theorem headerRe_toEol : headerRe.ToEol := by
  intro w g rest h
  obtain ⟨_, _, _, -, -, -, h, -⟩ := headerRe_matches.1 h
  exact h

/-! ## Addresses and numbers -/

theorem IsAddr.not_mem {a : List Char} (h : IsAddr a) {c : Char} (hc : hexDigit c = false)
    (hx : c.toLower ≠ 'x') : c ∉ a := by
  obtain ⟨x, d, hx', hd, rfl⟩ := h
  have h0 : c ≠ '0' := by rintro rfl; exact absurd hc (by decide)
  have h1 : c ≠ x := by rintro rfl; exact hx hx'
  have hd : c ∉ d := fun hm => by simp [hd.all c hm] at hc
  simp [h0, h1, hd]

theorem hexDigit_digitChar : ∀ d < 16, hexDigit (Nat.digitChar d) := by decide

theorem isAddr_addrText (w : Word) : IsAddr (addrText w) := by
  refine ⟨'x', hex16 w, rfl, ⟨?_, ?_⟩, rfl⟩
  · exact List.ne_nil_of_length_pos (by simp [hex16])
  · intro c hc
    obtain ⟨i, rfl⟩ := List.mem_ofFn.1 hc
    exact hexDigit_digitChar _ (Nat.mod_lt _ (by decide))

theorem not_mem_addrText (w : Word) {c : Char} (hc : hexDigit c = false) (hx : c.toLower ≠ 'x') :
    c ∉ addrText w := (isAddr_addrText w).not_mem hc hx

theorem decimal_of_isDigit {c : Char} (h : c.isDigit) : decimal c = some (c.toNat - '0'.toNat) := by
  have h' : 0x30 ≤ c.toNat ∧ c.toNat < 0x30 + 10 := by
    simp only [Char.isDigit, Bool.and_eq_true, decide_eq_true_eq, ge_iff_le,
      UInt32.le_iff_toNat_le] at h
    exact ⟨h.1, Nat.lt_succ_of_le h.2⟩
  rw [decimal, zeros, List.find?_cons_of_pos (by simpa using h')]
  rfl

theorem isDigit_toDigits (n : ℕ) : ∀ c ∈ Nat.toDigits 10 n, c.isDigit := fun _ hc =>
  Nat.isDigit_of_mem_toDigits (by decide) (by decide) hc

theorem isDigit_dec {n : ℕ} (w : BitVec n) : ∀ c ∈ dec w, c.isDigit := isDigit_toDigits w.toNat

theorem not_mem_dec {n : ℕ} (w : BitVec n) {c : Char} (hc : c.isDigit = false) : c ∉ dec w :=
  fun h => by simp [isDigit_dec w c h] at hc

theorem digit_of_isDigit {c : Char} (h : c.isDigit) : digit c := by
  simp [digit, decimal_of_isDigit h]

theorem run_dec {n : ℕ} (w : BitVec n) : Run digit (dec w) :=
  ⟨Nat.toDigits_ne_nil, fun c hc => digit_of_isDigit (isDigit_dec w c hc)⟩

theorem foldlM_decimal {s : List Char} (n : ℕ) (h : ∀ c ∈ s, c.isDigit) :
    s.foldlM (fun n c => (decimal c).map (10 * n + ·)) n = some (Nat.ofDigitChars 10 s n) := by
  induction s generalizing n with
  | nil => simp
  | cons c s ih =>
    rw [List.foldlM_cons, decimal_of_isDigit (h c List.mem_cons_self), Nat.ofDigitChars_cons]
    exact ih _ fun d hd => h d (List.mem_cons_of_mem c hd)

theorem int_toDigits (n : ℕ) : int (Nat.toDigits 10 n) = some n := by
  have hne : Nat.toDigits 10 n ≠ [] := Nat.toDigits_ne_nil
  rw [int, if_neg hne, foldlM_decimal 0 (isDigit_toDigits n)]
  exact congrArg some Nat.ofDigitChars_ten_toDigits

/-! ## Lines -/

theorem before {c : Char} {a b s t : List Char} (ha : c ∉ a) (hb : c ∉ b)
    (h : a ++ c :: s = b ++ c :: t) : a = b ∧ s = t := by
  induction a generalizing b with
  | nil =>
    cases b with
    | nil => exact ⟨rfl, by simpa using h⟩
    | cons e b => exact absurd (List.cons.inj h).1 fun hce => hb (by simp [hce])
  | cons d a ih =>
    cases b with
    | nil => exact absurd (List.cons.inj h).1 fun hdc => ha (by simp [hdc])
    | cons e b =>
      obtain ⟨hde, h⟩ := List.cons.inj h
      obtain ⟨hab, hst⟩ := ih (fun hc => ha (by simp [hc])) (fun hc => hb (by simp [hc])) h
      exact ⟨by rw [hde, hab], hst⟩

theorem headerBody_eq (addr : Word) (size : BitVec 32) : headerBody addr size =
    addrText addr ++ ',' :: ' ' :: (dec size ++ ',' :: ' ' :: ['1']) := by
  simp [headerBody]

theorem newline_not_mem_header (addr : Word) (size : BitVec 32) : '\n' ∉ headerBody addr size := by
  simp [headerBody_eq, not_mem_addrText addr (c := '\n') (by decide) (by decide),
    not_mem_dec size (c := '\n') (by decide)]

/-- The header is found, with its address, size and count. -/
theorem findAll_header (addr : Word) (size : BitVec 32) :
    headerRe.findAll (headerBody addr size) = [[addrText addr, dec size, ['1']]] := by
  obtain ⟨g, hg, -, e⟩ := headerRe_toEol.findAll_eq headerRe_nil (newline_not_mem_header addr size)
    (headerRe_matches.2 ⟨['1'], dec size, addrText addr, isAddr_addrText addr, run_dec size,
      run_dec (1 : BitVec 32), .inl rfl, headerBody_eq addr size, rfl⟩)
  obtain ⟨m, n, a, ha, hn, -, -, hw, rfl⟩ := headerRe_matches.1 hg
  rw [headerBody_eq] at hw
  obtain ⟨rfl, hw₁⟩ := before (not_mem_addrText addr (by decide) (by decide))
    (ha.not_mem (by decide) (by decide)) hw
  have hn' : ',' ∉ n := fun h => absurd (hn.all _ h) (by decide)
  obtain ⟨rfl, hw₂⟩ := before (not_mem_dec size (by decide)) hn' (List.cons.inj hw₁).2
  rw [e, ← (List.cons.inj hw₂).2]

end Script

/-! ## Blocks -/

namespace Line

/-- The line names a file. -/
def named : Line → Bool
  | unknown _ | anonymous _ _ => false
  | file _ _ | fileName _ _ _ | fileNameLine _ _ _ _ => true

/-- The path and the text in the brackets, as they are printed. -/
def parts : Line → Option (List Char × List Char)
  | unknown _ | anonymous _ _ => none
  | file _ path => some (path, "unknown".toList)
  | fileName _ path symbol => some (path, symbol ++ " + ?".toList)
  | fileNameLine _ path symbol offset => some (path, symbol ++ " + ".toList ++ dec offset)

/-- The frame that is printed. -/
def frame (l : Line) : Option Script.Frame := l.parts.map fun x => ⟨addrText l.pc, x.1, x.2⟩

theorem named_iff {l : Line} : l.named ↔ ∃ f, l.frame = some f := by
  cases l <;> simp [named, frame, parts]

/-- Names without line feeds; `write_trace` names no file by the empty text. -/
def Printable : Line → Prop
  | unknown _ | anonymous _ _ => True
  | file _ path => Regex.Run Script.dot path
  | fileName _ path symbol | fileNameLine _ path symbol _ =>
    Regex.Run Script.dot path ∧ '\n' ∉ symbol

open Script

theorem dot_all {s : List Char} (h : '\n' ∉ s) : ∀ c ∈ s, dot c := fun c hc => by
  simpa [dot] using ne_of_mem_of_not_mem hc h

/-- What the line prints has a frame's shape, with a path and a text in
    brackets on one line. -/
theorem Printable.body_eq {l : Line} {f : Frame} (h : l.Printable) (hf : l.frame = some f) :
    f.pc = addrText l.pc ∧ Run dot f.path ∧ Run dot f.desc ∧
      l.body = f.pc ++ ' ' :: (f.path ++ ' ' :: '(' :: (f.desc ++ [')'])) := by
  cases l with
  | unknown | anonymous => simp [frame, parts] at hf
  | file pc path =>
    obtain rfl := Option.some.inj hf
    exact ⟨rfl, h, ⟨by simp, dot_all (by simp)⟩, by simp [body, Line.pc]⟩
  | fileName pc path symbol =>
    obtain rfl := Option.some.inj hf
    refine ⟨rfl, h.1, ⟨by simp, dot_all ?_⟩, by simp [body, Line.pc]⟩
    simp [h.2]
  | fileNameLine pc path symbol offset =>
    obtain rfl := Option.some.inj hf
    refine ⟨rfl, h.1, ⟨by simp, dot_all ?_⟩, by simp [body, Line.pc]⟩
    simp [h.2, not_mem_dec offset (c := '\n') (by decide)]

theorem Printable.oneLine {l : Line} (h : l.Printable) : '\n' ∉ l.body := by
  have ha : ∀ w, '\n' ∉ addrText w := fun w => not_mem_addrText w (by decide) (by decide)
  by_cases hn : l.named
  · obtain ⟨f, hf⟩ := named_iff.1 hn
    obtain ⟨hpc, hp, hd, e⟩ := h.body_eq hf
    have hp : '\n' ∉ f.path := fun hm => absurd (hp.all _ hm) (by decide)
    have hd : '\n' ∉ f.desc := fun hm => absurd (hd.all _ hm) (by decide)
    simp [e, hpc, ha, hp, hd]
  · cases l with
    | unknown pc => simp [body, ha]
    | anonymous pc base =>
      have hx : '\n' ∉ hex16 base := fun h => ha base (List.mem_append_right _ h)
      simp [body, ha, hx]
    | file | fileName | fileNameLine => simp [named] at hn

theorem body_ne_nil (l : Line) : l.body ≠ [] := by
  cases l <;> simp [body, addrText]

theorem getLast?_body {l : Line} (hn : l.named = false) : l.body.getLast? = some '>' := by
  cases l with
  | unknown | anonymous => rw [body, List.getLast?_append]; rfl
  | file | fileName | fileNameLine => simp [named] at hn

end Line

open Script

/-- No frame is found in a line that does not end with a bracket. -/
theorem findAll_frame_nil {s : List Char} {c : Char} (hs : '\n' ∉ s) (h : s.getLast? = some c)
    (hc : c ≠ ')') : frameRe.findAll s = [] := by
  refine frameRe_toEol.findAll_eq_nil hs fun t g ht hm => ?_
  obtain ⟨d, p, a, -, -, -, -, e, -⟩ := frameRe_matches.1 hm
  obtain ⟨u, rfl⟩ := ht
  have hut : u ++ t = u ++ (a ++ ' ' :: (p ++ ' ' :: '(' :: d)) ++ [')'] := by simp [e]
  rw [hut, List.getLast?_concat] at h
  exact hc (Option.some.inj h).symm

/-- What `print_report` writes for a frame, without the line feed. -/
def Script.Frame.text (f : Frame) : List Char :=
  f.pc ++ ' ' :: (f.path ++ ' ' :: '(' :: (f.desc ++ [')']))

/-- The frame `f` is the printed line `l`. -/
structure Spells (f : Frame) (l : Line) : Prop where
  pc : f.pc = addrText l.pc
  text : f.text = l.body

/-- The frames read from a line. -/
def Line.read (l : Line) : List Frame := (frameRe.findAll l.body).map Frame.ofMatch

/-- **A line is read as one frame if it names a file**, and skipped otherwise. -/
theorem Line.Printable.read_eq {l : Line} (h : l.Printable) :
    l.named = true ∧ (∃ f, l.read = [f] ∧ Spells f l) ∨ l.named = false ∧ l.read = [] := by
  rcases hn : l.named
  · have hnil := findAll_frame_nil h.oneLine (Line.getLast?_body hn) (by decide)
    exact .inr ⟨rfl, by rw [Line.read, hnil]; rfl⟩
  · obtain ⟨f, hframe⟩ := Line.named_iff.1 hn
    obtain ⟨hpc, hp, hd, e⟩ := h.body_eq hframe
    rw [hpc] at e
    obtain ⟨g, hg, -, hf⟩ := frameRe_toEol.findAll_eq frameRe_nil h.oneLine
      (frameRe_matches.2 ⟨f.desc, f.path, _, isAddr_addrText _, hp, hd, .inl rfl, e, rfl⟩)
    obtain ⟨d, p, a, ha, -, -, -, e', rfl⟩ := frameRe_matches.1 hg
    obtain ⟨rfl, -⟩ := before (not_mem_addrText _ (by decide) (by decide))
      (ha.not_mem (by decide) (by decide)) (e.symm.trans e')
    exact .inl ⟨rfl, ⟨addrText l.pc, p, d⟩, by rw [Line.read, hf]; rfl, rfl, e'.symm⟩

/-- A record with the lines printed for its frames. -/
structure Printed where
  addr : Word
  size : BitVec 32
  lines : List Line
  printable : ∀ l ∈ lines, l.Printable

namespace Printed

/-- What `write_trace` writes. -/
def text (b : Printed) : List Char := blockText b.addr b.size b.lines

/-- The paragraph of a block. -/
def body (b : Printed) : List Char := unlines (headerBody b.addr b.size) (b.lines.map Line.body)

/-- What is read of the block. -/
def trace (b : Printed) : Script.Trace :=
  ⟨addrText b.addr, b.size.toNat, 1, b.lines.flatMap Line.read⟩

theorem text_eq (b : Printed) : b.text = '\n' :: (b.body ++ ['\n']) := by
  rw [body, unlines_newline]
  simp only [text, blockText, headerText, List.flatMap_map,
    List.cons_append, List.append_assoc, List.nil_append]
  rfl

theorem oneLine (b : Printed) :
    ∀ m ∈ headerBody b.addr b.size :: b.lines.map Line.body, '\n' ∉ m := by
  intro m hm
  rcases List.mem_cons.1 hm with rfl | hm
  · exact newline_not_mem_header b.addr b.size
  · obtain ⟨l, hl, rfl⟩ := List.mem_map.1 hm
    exact (b.printable l hl).oneLine

theorem lines_ne_nil (b : Printed) : ∀ m ∈ b.lines.map Line.body, m ≠ [] := by
  intro m hm
  obtain ⟨l, -, rfl⟩ := List.mem_map.1 hm
  exact l.body_ne_nil

theorem split_body (b : Printed) (s : List Char) :
    blankLine.split (b.body ++ s) = (blankLine.split s).modifyHead (b.body ++ ·) :=
  split_unlines s b.oneLine b.lines_ne_nil

/-- The text `s` reads like the block: line by line, the same is found. -/
def Shows (b : Printed) (s : List Char) : Prop :=
  ∀ r : Regex, r.oneLine → r.outcomes [] = [] →
    r.findAll s = (headerBody b.addr b.size :: b.lines.map Line.body).flatMap r.findAll

theorem shows_body (b : Printed) : b.Shows b.body := fun _ hr h0 =>
  (findAll_unlines hr h0 b.oneLine).1

theorem shows_body_newline (b : Printed) : b.Shows (b.body ++ ['\n']) := fun _ hr h0 =>
  (findAll_unlines hr h0 b.oneLine).2

/-- **A block is read as its trace.** -/
theorem Shows.parseTrace_eq {b : Printed} {s : List Char} (h : b.Shows s) :
    parseTrace s = some b.trace := by
  have hlast : (headerBody b.addr b.size).getLast? = some '1' := by
    rw [headerBody, List.getLast?_append]; rfl
  have hframes : (frameRe.findAll s).map Frame.ofMatch = b.lines.flatMap Line.read := by
    rw [h _ frameRe_oneLine frameRe_nil, List.flatMap_cons,
      findAll_frame_nil (newline_not_mem_header _ _) hlast (by decide), List.nil_append,
      List.flatMap_map, List.map_flatMap]
    rfl
  have hheader : (headerRe.findAll s).head? = some [addrText b.addr, dec b.size, ['1']] := by
    rw [h _ headerRe_oneLine headerRe_nil, List.flatMap_cons, findAll_header]
    rfl
  have h1 : int ['1'] = some 1 := by decide
  simp [parseTrace, hframes, hheader, dec, int_toDigits, h1, trace]

end Printed

/-! ## Reports -/

/-- The pieces the blank lines leave of a report. -/
theorem split_report (b : Printed) (bs : List Printed) :
    ((blankLine.split ('\n' :: bs.flatMap Printed.text)).modifyHead (b.body ++ ·)).mapM parseTrace =
      some ((b :: bs).map Printed.trace) := by
  induction bs generalizing b with
  | nil =>
    change [b.body ++ ['\n']].mapM parseTrace = _
    simp [b.shows_body_newline.parseTrace_eq]
  | cons b' bs ih =>
    have hs : '\n' :: (b' :: bs).flatMap Printed.text =
        '\n' :: '\n' :: (b'.body ++ '\n' :: bs.flatMap Printed.text) := by
      simp [Printed.text_eq]
    rw [hs, split_blankLine, List.modifyHead_cons, List.append_nil, b'.split_body, List.mapM_cons,
      b.shows_body.parseTrace_eq, ih b']
    rfl

theorem parseTrace_newline (s : List Char) : parseTrace ('\n' :: s) = parseTrace s := by
  rw [parseTrace, findAll_newline frameRe_oneLine frameRe_nil,
    findAll_newline headerRe_oneLine headerRe_nil]
  rfl

/-- **A report is read as the traces of its blocks.** -/
theorem parseReport_eq (b : Printed) (bs : List Printed) :
    parseReport ((b :: bs).flatMap Printed.text) = some ((b :: bs).map Printed.trace) := by
  have htext : (b :: bs).flatMap Printed.text =
      unlines [] (headerBody b.addr b.size :: b.lines.map Line.body) ++
        '\n' :: bs.flatMap Printed.text := by
    simp [Printed.text_eq, unlines, Printed.body]
  have hlines : ∀ m ∈ [] :: headerBody b.addr b.size :: b.lines.map Line.body, '\n' ∉ m :=
    List.forall_mem_cons.2 ⟨by simp, b.oneLine⟩
  have hne : ∀ m ∈ headerBody b.addr b.size :: b.lines.map Line.body, m ≠ [] :=
    List.forall_mem_cons.2 ⟨by simp [headerBody, addrText], b.lines_ne_nil⟩
  rw [parseReport, htext, split_unlines _ hlines hne, ← split_report b bs]
  -- only the first piece starts with a line feed
  rcases blankLine.split ('\n' :: bs.flatMap Printed.text) with _ | ⟨s, ps⟩
  · rfl
  · simp only [List.modifyHead_cons, List.mapM_cons, unlines, List.nil_append, List.cons_append,
      parseTrace_newline, Printed.body]

/-- The trace `t` is the record printed as `b`, frame by frame. -/
structure Mirrors (t : Script.Trace) (b : Printed) : Prop where
  id : t.id = addrText b.addr
  size : t.size = b.size.toNat
  count : t.count = 1
  stack : List.Forall₂ Spells t.stack b.lines

theorem forall₂_read {R : Script.Frame → Line → Prop} {ls : List Line} (h : ∀ l ∈ ls,
      l.named = true ∧ (∃ f, l.read = [f] ∧ R f l) ∨ l.named = false ∧ l.read = []) :
    List.Forall₂ R (ls.flatMap Line.read) (ls.filter Line.named) := by
  induction ls with
  | nil => exact .nil
  | cons l ls ih =>
    have ih := ih fun m hm => h m (List.mem_cons_of_mem l hm)
    rcases h l List.mem_cons_self with ⟨hn, f, hf, hs⟩ | ⟨hn, hf⟩
    · simpa [hf, hn] using ⟨hs, ih⟩
    · simpa [hf, hn] using ih

theorem Printed.mirrors_iff (b : Printed) : Mirrors b.trace b ↔ ∀ l ∈ b.lines, l.named := by
  have h := forall₂_read fun l hl => (b.printable l hl).read_eq
  constructor
  · intro m
    have hlen := h.length_eq.symm.trans m.stack.length_eq
    exact List.length_filter_eq_length_iff.1 hlen
  · intro hn
    rw [List.filter_eq_self.2 hn] at h
    exact ⟨rfl, rfl, rfl, h⟩

/-- Reading a report back gives one trace for each of its blocks, in the same
    order, with the same address, size and count and one frame for each line. -/
def ReadsBack (bs : List Printed) : Prop :=
  ∃ report, parseReport (bs.flatMap Printed.text) = some report ∧ List.Forall₂ Mirrors report bs

/-- **A report is read back iff each of its lines names a file.** -/
theorem readsBack_iff (b : Printed) (bs : List Printed) :
    ReadsBack (b :: bs) ↔ ∀ b' ∈ b :: bs, ∀ l ∈ b'.lines, l.named := by
  have h : List.Forall₂ Mirrors ((b :: bs).map Printed.trace) (b :: bs) ↔
      ∀ b' ∈ b :: bs, ∀ l ∈ b'.lines, l.named := by
    rw [List.forall₂_map_left_iff, List.forall₂_same]
    exact forall₂_congr fun b' _ => b'.mirrors_iff
  rw [ReadsBack, parseReport_eq]
  constructor
  · rintro ⟨report, e, hm⟩
    rw [← Option.some.inj e] at hm
    exact h.1 hm
  · intro hn
    exact ⟨_, rfl, h.2 hn⟩

/-- The line of a frame in unknown code is skipped. -/
theorem skips_unknown : ¬ ∀ b bs, ReadsBack (b :: bs) := by
  intro h
  obtain ⟨report, e, hm⟩ := h ⟨0x7000, 4096, [.unknown 0x10], by simp [Line.Printable]⟩ []
  have : report = [⟨addrText 0x7000, 4096, 1, []⟩] :=
    Option.some.inj (e.symm.trans (by decide +kernel))
  subst this
  obtain ⟨⟨-, -, -, hs⟩, -⟩ := List.forall₂_cons.1 hm
  simpa using hs.length_eq

/-! ## The report of a table -/

/-- The names the environment knows are free of line feeds. -/
structure Symbols.OneLine (env : Symbols) : Prop where
  fname : ∀ {pc info}, env.xdlAddr pc = some info → ∀ s ∈ info.dliFname, '\n' ∉ s
  sname : ∀ {pc info}, env.xdlAddr pc = some info → ∀ s ∈ info.dliSname, '\n' ∉ s
  demangle : ∀ {s t}, env.demangle s = some t → '\n' ∉ t

theorem Symbols.OneLine.printable {env : Symbols} (h : env.OneLine) (pc : Word) :
    (lineOf env pc).Printable := by
  unfold lineOf
  split
  · trivial
  rename_i info e
  split
  · trivial
  split
  · trivial
  · trivial
  rename_i fname hne hf
  have hpath : Run dot fname := ⟨hne, Line.dot_all (h.fname e _ hf)⟩
  split
  · exact hpath
  · exact hpath
  rename_i sname _ hs
  have hsym : '\n' ∉ (env.demangle sname).getD sname := by
    rcases hd : env.demangle sname with _ | t
    · exact h.sname e _ hs
    · exact h.demangle hd
  dsimp only
  split
  · exact ⟨hpath, hsym⟩
  · exact ⟨hpath, hsym⟩

/-- The block a record is printed as. -/
def Record.toPrinted {env : Symbols} (h : env.OneLine) (r : Record) : Printed where
  addr := r.addr
  size := r.size
  lines := r.frames.map (lineOf env)
  printable := List.forall_mem_map.2 fun pc _ => h.printable pc

theorem Refines.print_eq_text {c : MemoryCache} {s : Store} (R : Refines c s) {env : Symbols}
    (h : env.OneLine) :
    c.print env = some ((s.inOrder.map (Record.toPrinted h)).flatMap Printed.text) := by
  rw [R.print, List.flatMap_map]
  rfl

/-- **The report of a table is read as the traces of its records**, in the
    order of the report. -/
theorem Refines.parseReport_print {c : MemoryCache} {s : Store} (R : Refines c s) (hs : s ≠ [])
    {env : Symbols} (h : env.OneLine) :
    (c.print env).bind parseReport = some (s.inOrder.map fun r => (r.toPrinted h).trace) := by
  have hne : s.inOrder ≠ [] := fun e => hs (by simpa [e] using s.inOrder_perm)
  obtain ⟨r, rs, e⟩ := List.exists_cons_of_ne_nil hne
  rw [R.print_eq_text h, Option.bind_some, e, List.map_cons, parseReport_eq]
  simp

end Raphael
