/-
  The analysis of a report: `group_record`, `retry_symbol` and `print_report`
  (raphael.py), after `parse_report` and `merge_report`.

  The analysis begins with a line for the total, then one line for each group
  of traces, and then the traces.  The sorts only have to answer with a
  permutation (`Sorting.ListSort`).  addr2line is a parameter; a script that
  stops with an exception is `none`.

  * `collect_totals`, `collect_tally`: the loop over the traces keeps the sum of
    the groups equal to the total.
  * `arrange_spec`: each group has one line, and `extras` the last one.
  * `printReport_eq`: what is written is the text of a sheet that balances.
-/
import Raphael.Merge

namespace Raphael.Script

open Regex Sorting

/-! ## group_record -/

/-- Lower case, for a letter of an expression that ignores the case. -/
def foldCase (c : Char) : Char :=
  if c = '\u017f' then 's' else if c = '\u212a' then 'k' else c.toLower

/-- A letter, ignoring the case. -/
def letter (c : Char) : Regex := cls (foldCase · == c)

/-- `(so|apk|oat)`, ignoring the case -/
def extensionRe : Regex :=
  grp (alt (letter 's' ++ letter 'o')
    (alt (letter 'a' ++ letter 'p' ++ letter 'k') (letter 'o' ++ letter 'a' ++ letter 't')))

/-- `.+\/(.+\.(so|apk|oat))` -/
def libraryRe : Regex := plus dot ++ chr '/' ++ grp (plus dot ++ chr '.' ++ extensionRe)

/-- `re.match(..).group(1)` -/
def group1 (r : Regex) (s : List Char) : Option (List Char) :=
  (r.outcomes s).head?.map fun o => o.1.getD 0 []

/-- `system_group` -/
def systemGroup : List (List Char) :=
  ["libhwui.so".toList, "libsqlite.so".toList, "WebViewGoogle.apk".toList,
    "libstagefright.so".toList, "libcamera_client.so".toList, "libandroid_runtime.so".toList]

def extras : List Char := "extras".toList

/-- The loop of `group_record`. -/
def groupLoop (default : Option (List Char)) : List Frame → List Char
  | [] => default.getD extras
  | frame :: stack =>
    match group1 libraryRe frame.path with
    | none => groupLoop default stack
    | some name =>
      if name = "libraphael.so".toList then groupLoop default stack
      else if "/data/".toList <+: frame.path then name
      else if name ∈ systemGroup ∧ default = none then groupLoop (some name) stack
      else groupLoop default stack

/-- `group_record` -/
def groupRecord (record : Trace) : List Char := groupLoop none record.stack

theorem groupLoop_cases (stack : List Frame) (default : Option (List Char)) :
    groupLoop default stack = default.getD extras ∨ ∃ f ∈ stack,
      group1 libraryRe f.path = some (groupLoop default stack) ∧
        groupLoop default stack ≠ "libraphael.so".toList := by
  induction stack generalizing default with
  | nil => exact Or.inl rfl
  | cons f stack ih =>
    have hlater : ∀ d, groupLoop d stack = d.getD extras ∨ ∃ f' ∈ f :: stack,
        group1 libraryRe f'.path = some (groupLoop d stack) ∧
          groupLoop d stack ≠ "libraphael.so".toList := by
      intro d
      rcases ih d with h | ⟨f', hf', h⟩
      · exact Or.inl h
      · exact Or.inr ⟨f', List.mem_cons_of_mem f hf', h⟩
    rw [groupLoop]
    split
    · exact hlater default
    next name hname =>
      split_ifs with hself hdata hsys
      · exact hlater default
      · exact Or.inr ⟨f, List.mem_cons_self, hname, hself⟩
      · rcases hlater (some name) with h | h
        · rw [h]
          exact Or.inr ⟨f, List.mem_cons_self, hname, hself⟩
        · exact Or.inr h
      · exact hlater default

/-- **A group is named by a library on the stack**, never by libraphael.so. -/
theorem groupRecord_cases (t : Trace) : groupRecord t = extras ∨ ∃ f ∈ t.stack,
    group1 libraryRe f.path = some (groupRecord t) ∧ groupRecord t ≠ "libraphael.so".toList :=
  groupLoop_cases t.stack none

/-! ## retry_symbol -/

/-- The symbol folder and addr2line. -/
structure Symbolizer where
  /-- `symbol_table` -/
  symbolTable : List Char → Option (List Char)
  /-- `addr_to_line`, `none` if it raises -/
  addrToLine : List Char → List Char → Option (List Char)

/-- No symbol folder is given. -/
def noSymbols : Symbolizer := ⟨fun _ => none, fun _ _ => none⟩

/-- `symbol_cache`: by the library, then by the address. -/
abbrev SymbolCache := List Char → List Char → Option (List Char)

def SymbolCache.update (cache : SymbolCache) (name pc symbol : List Char) : SymbolCache :=
  fun n p => if n = name ∧ p = pc then some symbol else cache n p

/-- `.+\/(.+\.so)$`, ignoring the case -/
def soRe : Regex :=
  plus dot ++ chr '/' ++ grp (plus dot ++ chr '.' ++ letter 's' ++ letter 'o') ++ eol

/-- The body of the loop of `retry_symbol`. -/
def retryFrame (env : Symbolizer) (cache : SymbolCache) (frame : Frame) :
    Option (SymbolCache × Frame) :=
  match group1 soRe frame.path with
  | none => some (cache, frame)
  | some name =>
    match env.symbolTable name with
    | none => some (cache, frame)
    | some file =>
      match cache name frame.pc with
      | some (c :: symbol) => some (cache, { frame with desc := c :: symbol })
      | none | some [] => do
        let symbol ← env.addrToLine frame.pc file
        let symbol := if symbol = [] then "unknown".toList else symbol
        return (cache.update name frame.pc symbol, { frame with desc := symbol })

/-- The loop of `retry_symbol`. -/
def retryFrames (env : Symbolizer) : SymbolCache → List Frame → Option (SymbolCache × List Frame)
  | cache, [] => some (cache, [])
  | cache, frame :: stack => do
    let (cache, frame) ← retryFrame env cache frame
    let (cache, stack) ← retryFrames env cache stack
    return (cache, frame :: stack)

/-- `retry_symbol` -/
def retrySymbol (env : Symbolizer) (cache : SymbolCache) (record : Trace) :
    Option (SymbolCache × Trace) := do
  let (cache, stack) ← retryFrames env cache record.stack
  return (cache, { record with stack := stack })

/-! ## print_report -/

/-- A group and its size. -/
abbrev Group := List Char × ℕ

/-- `groups.update(..)`: add `size` to the group `name`, behind the others if it
    is new. -/
def update (name : List Char) (size : ℕ) : List Group → List Group
  | [] => [(name, size)]
  | g :: groups =>
    if g.1 = name then (name, size + g.2) :: groups else g :: update name size groups

/-- The first loop of `print_report`. -/
def collect (groups : List Group) (totals : ℕ) : List Trace → List Group × ℕ
  | [] => (groups, totals)
  | record :: report =>
    collect (update (groupRecord record) record.size groups) (totals + record.size) report

/-- `key=lambda x: x[1], reverse=True` -/
def Group.larger (x y : Group) : Bool := y.2 < x.2

/-- A comma behind each three of the digits, the last digit first. -/
def commas : List Char → List Char
  | a :: b :: c :: d :: s => a :: b :: c :: ',' :: commas (d :: s)
  | s => s

/-- `format(n, ',')` -/
def thousands (n : ℕ) : List Char := (commas (Nat.toDigits 10 n).reverse).reverse

/-- The line `'%s\t%s\n'` of a group, or of the total. -/
def Group.text (g : Group) : List Char :=
  (thousands g.2).leftpad 13 ' ' ++ '\t' :: (g.1 ++ ['\n'])

/-- The groups in the order they are written in: `extras` is held back. -/
def arrange (held : Option Group) : List Group → List Group
  | [] => held.toList
  | g :: groups => if g.1 ≠ extras then g :: arrange held groups else arrange (some g) groups

/-- The lines of a trace. -/
def Trace.text (t : Trace) : List Char :=
  '\n' :: (t.id ++ ", ".toList ++ Nat.toDigits 10 t.size ++ ", ".toList ++
    Nat.toDigits 10 t.count ++ ['\n']) ++ t.stack.flatMap fun f => f.text ++ ['\n']

/-- The last loop of `print_report`. -/
def printTraces (env : Symbolizer) : SymbolCache → List Trace → Option (List Char)
  | _, [] => some []
  | cache, record :: report => do
    let (cache, record) ← retrySymbol env cache record
    let text ← printTraces env cache report
    return record.text ++ text

/-- `print_report` -/
def printReport (S : ListSort) (env : Symbolizer) (report : List Trace) : Option (List Char) := do
  let (groups, totals) := collect [] 0 report
  let lines := (arrange none (S.sort Group.larger groups)).flatMap Group.text
  let traces ← printTraces env (fun _ _ => none) (S.sort Trace.larger report)
  return Group.text ("totals".toList, totals) ++ lines ++ traces

/-- The script on the text of a report, with no symbol folder; `S` and `T` sort
    in `merge_report` and `print_report`. -/
def analyze (S T : ListSort) (string : List Char) : Option (List Char) := do
  let report ← parseReport string
  let report ← mergeReport S report
  printReport T noSymbols report

/-! ## Groups -/

section groups
variable {name : List Char} {size : ℕ} {groups : List Group}

/-- Adding to a group adds to every sum that the group is in. -/
theorem update_tally (p : List Char → Bool) :
    tally (p ·.1) Prod.snd (update name size groups) =
      tally (p ·.1) Prod.snd groups + if p name then size else 0 := by
  induction groups with
  | nil => rw [update, tally_cons, Nat.add_comm]
  | cons g groups ih =>
    rw [update]
    split_ifs with hg hp hp
    · simp only [tally_cons, hg, hp, if_true]
      omega
    · simp [tally_cons, hg, hp]
    · simp only [tally_cons, ih, hp, if_true]
      omega
    · simp [tally_cons, ih, hp]

theorem mem_update {n : List Char} :
    n ∈ (update name size groups).map Prod.fst ↔ n = name ∨ n ∈ groups.map Prod.fst := by
  induction groups with
  | nil => simp [update]
  | cons g groups ih =>
    rw [update]
    split_ifs with h
    · simp only [List.map_cons, List.mem_cons, h]
      tauto
    · simp only [List.map_cons, List.mem_cons, ih]
      tauto

theorem update_nodup (h : (groups.map Prod.fst).Nodup) :
    ((update name size groups).map Prod.fst).Nodup := by
  induction groups with
  | nil => simp [update]
  | cons g groups ih =>
    obtain ⟨hg, h⟩ := List.nodup_cons.1 h
    rw [update]
    split_ifs with hn
    · exact List.nodup_cons.2 ⟨hn ▸ hg, h⟩
    · refine List.nodup_cons.2 ⟨?_, ih h⟩
      rw [mem_update]
      rintro (e | e)
      · exact hn e
      · exact hg e

end groups

section collect
variable {groups : List Group} {totals : ℕ} {report : List Trace}

/-- **The loop adds the sizes up**, in the total and in the groups. -/
theorem collect_totals :
    (collect groups totals report).2 = totals + (report.map Trace.size).sum := by
  induction report generalizing groups totals with
  | nil => rfl
  | cons t report ih =>
    rw [collect, ih, List.map_cons, List.sum_cons]
    omega

theorem collect_tally (p : List Char → Bool) :
    tally (p ·.1) Prod.snd (collect groups totals report).1 =
      tally (p ·.1) Prod.snd groups + tally (fun t => p (groupRecord t)) Trace.size report := by
  induction report generalizing groups totals with
  | nil => rfl
  | cons t report ih =>
    rw [collect, ih, update_tally, tally_cons]
    omega

theorem mem_collect {n : List Char} : n ∈ (collect groups totals report).1.map Prod.fst ↔
    n ∈ groups.map Prod.fst ∨ ∃ t ∈ report, groupRecord t = n := by
  induction report generalizing groups totals with
  | nil => simp [collect]
  | cons t report ih =>
    rw [collect, ih, mem_update]
    simp only [List.mem_cons, exists_eq_or_imp]
    tauto

theorem collect_nodup (h : (groups.map Prod.fst).Nodup) :
    ((collect groups totals report).1.map Prod.fst).Nodup := by
  induction report generalizing groups totals with
  | nil => exact h
  | cons t report ih =>
    rw [collect]
    exact ih (update_nodup h)

end collect

/-! ## The order of the lines -/

/-- The groups before the held one are written first. -/
theorem arrange_held (g : Group) {groups : List Group} (h : extras ∉ groups.map Prod.fst) :
    arrange (some g) groups = groups ++ [g] := by
  induction groups with
  | nil => rfl
  | cons g' groups ih =>
    obtain ⟨hg, h⟩ := List.ne_and_not_mem_of_not_mem_cons h
    rw [arrange, if_pos (Ne.symm hg), ih h]
    rfl

/-- **Each group has one line, and `extras` the last one.** -/
theorem arrange_spec {groups : List Group} (h : (groups.map Prod.fst).Nodup) :
    (arrange none groups).Perm groups ∧ extras ∉ (arrange none groups).dropLast.map Prod.fst := by
  induction groups with
  | nil => exact ⟨List.Perm.refl _, by simp [arrange]⟩
  | cons g groups ih =>
    obtain ⟨hg, h⟩ := List.nodup_cons.1 h
    obtain ⟨hp, hlast⟩ := ih h
    rw [arrange]
    split_ifs with he
    · refine ⟨hp.cons g, ?_⟩
      rcases e : arrange none groups with _ | ⟨g', gs⟩
      · simp
      · rw [e] at hlast
        rw [List.dropLast_cons_cons, List.map_cons, List.mem_cons]
        rintro (h | h)
        · exact he h.symm
        · exact hlast h
    · obtain he := not_not.1 he
      rw [arrange_held g (he ▸ hg)]
      refine ⟨List.perm_append_singleton g groups, ?_⟩
      rw [List.dropLast_concat]
      exact he ▸ hg

/-- The commas taken out, the digits are back. -/
theorem commas_filter (s : List Char) (h : ',' ∉ s) : (commas s).filter (· ≠ ',') = s := by
  induction s using commas.induct with
  | case1 a b c d s ih =>
    simp only [List.mem_cons, not_or] at h ih
    obtain ⟨ha, hb, hc, hd, hs⟩ := h
    rw [commas]
    simpa [Ne.symm ha, Ne.symm hb, Ne.symm hc] using ih ⟨hd, hs⟩
  | case2 s hs =>
    have hc : commas s = s := by
      rw [commas]
      exact hs
    rw [hc, List.filter_eq_self]
    intro c hc
    simpa using ne_of_mem_of_not_mem hc h

theorem thousands_filter (n : ℕ) : (thousands n).filter (· ≠ ',') = Nat.toDigits 10 n := by
  have h : ',' ∉ (Nat.toDigits 10 n).reverse := by
    rw [List.mem_reverse]
    intro hm
    have := Nat.isDigit_of_mem_toDigits (by decide) (by decide) hm
    exact absurd this (by decide)
  rw [thousands, List.filter_reverse, commas_filter _ h, List.reverse_reverse]

/-! ## Traces -/

/-- Without a symbol folder no frame changes. -/
theorem retryFrames_noSymbols (cache : SymbolCache) (stack : List Frame) :
    retryFrames noSymbols cache stack = some (cache, stack) := by
  induction stack with
  | nil => rfl
  | cons f stack ih =>
    have hf : retryFrame noSymbols cache f = some (cache, f) := by
      unfold retryFrame
      cases group1 soRe f.path with
      | none => rfl
      | some name => rfl
    rw [retryFrames, hf]
    simp [ih]

theorem printTraces_noSymbols (cache : SymbolCache) (report : List Trace) :
    printTraces noSymbols cache report = some (report.flatMap Trace.text) := by
  induction report with
  | nil => rfl
  | cons t report ih =>
    rw [printTraces, retrySymbol, retryFrames_noSymbols]
    simp [ih]

/-! ## Totals -/

/-- What an analysis shows. -/
structure Sheet where
  totals : ℕ
  groups : List Group
  traces : List Trace

def Sheet.text (s : Sheet) : List Char :=
  Group.text ("totals".toList, s.totals) ++ s.groups.flatMap Group.text ++
    s.traces.flatMap Trace.text

/-- The numbers of `s` add up: over the groups, over the traces, and over the
    traces of each group. -/
structure Sheet.Balanced (s : Sheet) : Prop where
  groups : (s.groups.map Prod.snd).sum = s.totals
  once : (s.groups.map Prod.fst).Nodup
  extrasLast : extras ∉ s.groups.dropLast.map Prod.fst
  named : ∀ name, name ∈ s.groups.map Prod.fst ↔ ∃ t ∈ s.traces, groupRecord t = name
  shares : ∀ g ∈ s.groups, g.2 = tally (groupRecord · = g.1) Trace.size s.traces
  sizes : (s.traces.map Trace.size).sum = s.totals

/-- `s` balances, and its totals are those of the records printed as `bs`. -/
structure Conserves (bs : List Printed) (s : Sheet) : Prop extends s.Balanced where
  totals : s.totals = (bs.map (·.size.toNat)).sum
  counts : (s.traces.map Trace.count).sum = bs.length

/-- The number of a group is the sum over its traces. -/
theorem collect_share {report : List Trace} {g : Group} (hg : g ∈ (collect [] 0 report).1) :
    g.2 = tally (groupRecord · = g.1) Trace.size report := by
  have hnd : ((collect [] 0 report).1.map Prod.fst).Nodup := collect_nodup List.nodup_nil
  have h : tally (·.1 = g.1) Prod.snd (collect [] 0 report).1 = _ := collect_tally (· = g.1)
  rw [tally_key hnd hg] at h
  simpa [tally] using h

/-- **`print_report` balances.** -/
theorem printReport_eq (T : ListSort) (report : List Trace) : ∃ s : Sheet,
    printReport T noSymbols report = some s.text ∧ s.traces.Perm report ∧ s.Balanced := by
  have hnd : ((collect [] 0 report).1.map Prod.fst).Nodup := collect_nodup List.nodup_nil
  have hsort := T.perm Group.larger (collect [] 0 report).1
  obtain ⟨harr, hlast⟩ := arrange_spec ((hsort.map Prod.fst).nodup_iff.2 hnd)
  have hgroups := harr.trans hsort
  have htraces := T.perm Trace.larger report
  have htotals : (collect [] 0 report).2 = (report.map Trace.size).sum := by
    rw [collect_totals, Nat.zero_add]
  refine ⟨⟨(collect [] 0 report).2, arrange none (T.sort Group.larger (collect [] 0 report).1),
    T.sort Trace.larger report⟩, ?_, htraces, ?_⟩
  · rw [printReport, printTraces_noSymbols]
    rfl
  constructor
  case groups =>
    have h : tally (fun _ => true) Prod.snd (collect [] 0 report).1 = _ :=
      collect_tally fun _ => true
    rw [tally_true, tally_true] at h
    rw [(hgroups.map Prod.snd).sum_nat, htotals, h]
    simp [tally]
  case once => exact (hgroups.map Prod.fst).nodup_iff.2 hnd
  case extrasLast => exact hlast
  case named =>
    intro name
    rw [(hgroups.map Prod.fst).mem_iff, mem_collect]
    simp [htraces.mem_iff]
  case shares =>
    intro g hg
    rw [tally_perm htraces]
    exact collect_share (hgroups.mem_iff.1 hg)
  case sizes => rw [(htraces.map Trace.size).sum_nat, htotals]

/-- **Merging conserves the sizes and the number** of the traces, and makes up no
    address and no stack. -/
theorem mergeReport_totals (S : ListSort) {report : List Trace} (hne : report ≠ [])
    (hcount : ∀ t ∈ report, t.count = 1) : ∃ out, mergeReport S report = some out ∧
      (out.map Trace.size).sum = (report.map Trace.size).sum ∧
      (out.map Trace.count).sum = report.length ∧
      ∀ t ∈ out, ∃ t' ∈ report, t'.id = t.id ∧ t'.stack = t.stack := by
  obtain ⟨r, ts, -, hp, hmerge⟩ := mergeReport_eq S hne
  have hsort := S.perm Trace.larger (mergeLoop r ts)
  have hts : ∀ t ∈ ts, t.count = 1 :=
    fun t ht => hcount t (hp.mem_iff.1 (List.mem_cons_of_mem _ ht))
  refine ⟨_, hmerge, ?_, ?_, fun t ht => ?_⟩
  · rw [← tally_true, tally_perm hsort, mergeLoop_size (fun _ => true), tally_perm hp, tally_true]
  · rw [← tally_true, tally_perm hsort, mergeLoop_count (fun _ => true) hts, tally_perm hp,
      tally_ones hcount, List.filter_true]
  · obtain ⟨t', ht', e⟩ := mem_mergeLoop (hsort.mem_iff.1 ht)
    exact ⟨t', hp.mem_iff.1 ht', e⟩

end Raphael.Script
