/-
  Merging a report: `merge_report` (raphael.py).

  The traces are sorted by their stacks, then neighbours of equal stacks are
  merged into one.  `list.sort` is a parameter (`Sorting.StableSort`).

  * `Frame.sub` does not look at the path: two frames of the same pc in
    different files are not equal, but neither comes before the other.
  * `mergeReport_iff`: every stack is left in exactly one trace iff no two
    traces have the same stack to begin with, or such ties separate no traces
    of the same stack.
-/
import Raphael.Parse
import Raphael.Lib.Sort

namespace Raphael.Script

open Sorting

/-! ## Comparing -/

/-- `Frame.__eq__` -/
def Frame.eq (a b : Frame) : Bool := a.pc = b.pc ∧ a.path = b.path

/-- `Frame.__sub__` -/
def Frame.sub (a b : Frame) : ℤ := if a.eq b then 0 else if b.pc < a.pc then -1 else 1

/-- The loop of `Trace.__eq__`, on stacks of the same length. -/
def stackEq : List Frame → List Frame → Bool
  | x :: xs, y :: ys => if x.eq y then stackEq xs ys else false
  | _, _ => true

/-- `Trace.__eq__` -/
def Trace.eq (a b : Trace) : Bool :=
  if a.stack.length ≠ b.stack.length then false else stackEq a.stack b.stack

/-- The loop of `Trace.__sub__`, on stacks of the same length. -/
def stackSub : List Frame → List Frame → ℤ
  | x :: xs, y :: ys => if x.eq y then stackSub xs ys else x.sub y
  | _, _ => 0

/-- `Trace.__sub__` -/
def Trace.sub (a b : Trace) : ℤ :=
  if a.stack.length ≠ b.stack.length then if a.stack.length > b.stack.length then -1 else 1
  else stackSub a.stack b.stack

/-- The test of `cmp_to_key(lambda x1, x2: x1 - x2)`. -/
def Trace.lt (a b : Trace) : Bool := a.sub b < 0

/-! ## merge_report -/

/-- The loop of `merge_report`. -/
def mergeLoop (record : Trace) : List Trace → List Trace
  | [] => [record]
  | t :: ts =>
    if record.eq t then
      mergeLoop { record with size := record.size + t.size, count := record.count + 1 } ts
    else record :: mergeLoop t ts

/-- `key=lambda x: x.size, reverse=True` -/
def Trace.larger (a b : Trace) : Bool := b.size < a.size

/-- `merge_report`; fails on an empty report. -/
def mergeReport (S : ListSort) (report : List Trace) : Option (List Trace) :=
  match S.sort Trace.lt report with
  | [] => none
  | record :: ts => some (S.sort Trace.larger (mergeLoop record ts))

/-! ## Stacks -/

/-- What two frames are compared by. -/
def Frame.key (f : Frame) : List Char × List Char := (f.pc, f.path)

/-- What two traces are compared by. -/
def Trace.key (t : Trace) : List (List Char × List Char) := t.stack.map Frame.key

theorem Frame.eq_iff {a b : Frame} : a.eq b ↔ a.key = b.key := by
  simp [Frame.eq, Frame.key]

theorem stackEq_iff {xs ys : List Frame} (h : xs.length = ys.length) :
    stackEq xs ys ↔ xs.map Frame.key = ys.map Frame.key := by
  induction xs generalizing ys with
  | nil =>
    cases ys with
    | nil => simp [stackEq]
    | cons y ys => simp at h
  | cons x xs ih =>
    cases ys with
    | nil => simp at h
    | cons y ys =>
      have h : xs.length = ys.length := by simpa using h
      by_cases hxy : x.eq y
      · simp [stackEq, hxy, ih h, Frame.eq_iff.1 hxy]
      · simp [stackEq, hxy, mt Frame.eq_iff.2 hxy]

/-- **Traces are equal** iff their stacks are, frame by frame, by pc and path. -/
theorem Trace.eq_iff {a b : Trace} : a.eq b ↔ a.key = b.key := by
  unfold Trace.eq Trace.key
  split_ifs with h
  · have hne : a.stack.map Frame.key ≠ b.stack.map Frame.key := by
      intro e
      exact h (by simpa using congrArg List.length e)
    simp [hne]
  · exact stackEq_iff (not_not.1 h)

theorem Frame.sub_congr {a a' b b' : Frame} (ha : a.key = a'.key) (hb : b.key = b'.key) :
    a.sub b = a'.sub b' := by
  have heq : a.eq b = a'.eq b' := by
    rw [Bool.eq_iff_iff, Frame.eq_iff, Frame.eq_iff, ha, hb]
  rw [Frame.sub, Frame.sub, heq, (Prod.mk.inj ha).1, (Prod.mk.inj hb).1]

theorem stackSub_congr {xs xs' ys ys' : List Frame} (hx : xs.map Frame.key = xs'.map Frame.key)
    (hy : ys.map Frame.key = ys'.map Frame.key) : stackSub xs ys = stackSub xs' ys' := by
  induction xs generalizing xs' ys ys' with
  | nil =>
    obtain rfl : xs' = [] := by simpa using hx.symm
    cases ys <;> cases ys' <;> rfl
  | cons x xs ih =>
    obtain ⟨x', xs', rfl, hxx, hxs⟩ := List.map_eq_cons_iff.1 hx.symm
    cases ys with
    | nil =>
      obtain rfl : ys' = [] := by simpa using hy.symm
      rfl
    | cons y ys =>
      obtain ⟨y', ys', rfl, hyy, hys⟩ := List.map_eq_cons_iff.1 hy.symm
      have heq : x.eq y = x'.eq y' := by
        rw [Bool.eq_iff_iff, Frame.eq_iff, Frame.eq_iff, hxx, hyy]
      simp only [stackSub, heq, ih hxs.symm hys.symm, Frame.sub_congr hxx.symm hyy.symm]

theorem Trace.sub_congr {x x' y y' : Trace} (hx : x.key = x'.key) (hy : y.key = y'.key) :
    x.sub y = x'.sub y' := by
  have hlx : x.stack.length = x'.stack.length := by
    simpa [Trace.key] using congrArg List.length hx
  have hly : y.stack.length = y'.stack.length := by
    simpa [Trace.key] using congrArg List.length hy
  rw [Trace.sub, Trace.sub, hlx, hly, stackSub_congr hx hy]

/-- The order of two traces depends on their stacks only. -/
theorem Trace.lt_congr (x x' y y' : Trace) (hx : x.key = x'.key) (hy : y.key = y'.key) :
    x.lt y = x'.lt y' :=
  congrArg (fun d : ℤ => decide (d < 0)) (Trace.sub_congr hx hy)

theorem Frame.sub_asymm {a b : Frame} (h : a.sub b < 0) : ¬ b.sub a < 0 := by
  unfold Frame.sub at *
  split_ifs at h with h₁ h₂
  · exact absurd h (by decide)
  · have h₃ : ¬ a.pc < b.pc := fun h₃ => List.lt_asymm h₂ h₃
    split_ifs <;> decide
  · exact absurd h (by decide)

theorem stackSub_asymm {xs ys : List Frame} (h : stackSub xs ys < 0) : ¬ stackSub ys xs < 0 := by
  induction xs generalizing ys with
  | nil => simp [stackSub] at h
  | cons x xs ih =>
    cases ys with
    | nil => simp [stackSub] at h
    | cons y ys =>
      have hcomm : y.eq x = x.eq y := by
        rw [Bool.eq_iff_iff, Frame.eq_iff, Frame.eq_iff, eq_comm]
      simp only [stackSub, hcomm] at h ⊢
      split_ifs at h ⊢ with hxy
      · exact ih h
      · exact Frame.sub_asymm h

theorem Trace.sub_asymm {x y : Trace} (h : x.sub y < 0) : ¬ y.sub x < 0 := by
  unfold Trace.sub at *
  split_ifs at h with hl hgt
  · rw [if_pos (Ne.symm hl), if_neg (not_lt.2 hgt.le)]
    decide
  · exact absurd h (by decide)
  · rw [if_neg (by simpa using (not_not.1 hl).symm)]
    exact stackSub_asymm h

theorem Trace.lt_asymm (x y : Trace) (h : x.lt y) : y.lt x = false :=
  decide_eq_false (Trace.sub_asymm (of_decide_eq_true h))

/-! ## What the loop leaves -/

theorem mem_mergeLoop_key {ts : List Trace} {r : Trace} {k : List (List Char × List Char)} :
    k ∈ (mergeLoop r ts).map Trace.key ↔ k ∈ (r :: ts).map Trace.key := by
  induction ts generalizing r with
  | nil => rfl
  | cons t ts ih =>
    rw [mergeLoop]
    split_ifs with h
    · rw [ih]
      simp only [List.map_cons, List.mem_cons, ← Trace.eq_iff.1 h]
      tauto
    · simp only [List.map_cons, List.mem_cons] at ih ⊢
      rw [ih]

/-- A merged trace has its address and its stack from a trace of the report. -/
theorem mem_mergeLoop {ts : List Trace} {r t : Trace} (h : t ∈ mergeLoop r ts) :
    ∃ t' ∈ r :: ts, t'.id = t.id ∧ t'.stack = t.stack := by
  induction ts generalizing r with
  | nil =>
    obtain rfl := List.mem_singleton.1 h
    exact ⟨t, List.mem_cons_self, rfl, rfl⟩
  | cons t₁ ts ih =>
    rw [mergeLoop] at h
    split_ifs at h with heq
    · obtain ⟨t', ht', hid, hstack⟩ := ih h
      rcases List.mem_cons.1 ht' with rfl | ht'
      · exact ⟨r, List.mem_cons_self, hid, hstack⟩
      · exact ⟨t', by simp [ht'], hid, hstack⟩
    · rcases List.mem_cons.1 h with rfl | h
      · exact ⟨t, List.mem_cons_self, rfl, rfl⟩
      · obtain ⟨t', ht', e⟩ := ih h
        exact ⟨t', List.mem_cons_of_mem r ht', e⟩

/-- **The loop leaves each stack once** iff the equal ones are side by side. -/
theorem mergeLoop_nodup {ts : List Trace} {r : Trace} :
    ((mergeLoop r ts).map Trace.key).Nodup ↔ Contig Trace.key (r :: ts) := by
  induction ts generalizing r with
  | nil =>
    refine iff_of_true (List.nodup_singleton _) fun x y z hs => ?_
    have hlen := hs.length_le
    simp at hlen
  | cons t ts ih =>
    rw [mergeLoop]
    split_ifs with h
    · have hz : ({ r with size := r.size + t.size, count := r.count + 1 } : Trace).key = r.key := rfl
      exact ih.trans (contig_cons_cons_eq (Trace.eq_iff.1 h) hz).symm
    · rw [List.map_cons, List.nodup_cons, ih, mem_mergeLoop_key,
        contig_cons_cons_ne (mt Trace.eq_iff.2 h)]

section tally
variable (p : List (List Char × List Char) → Bool)

/-- **Merging keeps the sizes.** -/
theorem mergeLoop_size (ts : List Trace) (r : Trace) :
    tally (p ·.key) Trace.size (mergeLoop r ts) = tally (p ·.key) Trace.size (r :: ts) := by
  induction ts generalizing r with
  | nil => rfl
  | cons t ts ih =>
    rw [mergeLoop]
    split_ifs with h
    · rw [ih, tally_cons, tally_cons, tally_cons, ← Trace.eq_iff.1 h]
      change (if p r.key then r.size + t.size else 0) + _ = _
      split_ifs <;> omega
    · rw [tally_cons, ih, tally_cons r]

/-- **Merging counts.** -/
theorem mergeLoop_count {ts : List Trace} (hts : ∀ t ∈ ts, t.count = 1) (r : Trace) :
    tally (p ·.key) Trace.count (mergeLoop r ts) = tally (p ·.key) Trace.count (r :: ts) := by
  induction ts generalizing r with
  | nil => rfl
  | cons t ts ih =>
    have ih := ih fun t ht => hts t (List.mem_cons_of_mem _ ht)
    rw [mergeLoop]
    split_ifs with h
    · rw [ih, tally_cons, tally_cons, tally_cons, ← Trace.eq_iff.1 h, hts t List.mem_cons_self]
      change (if p r.key then r.count + 1 else 0) + _ = _
      split_ifs <;> omega
    · rw [tally_cons, ih, tally_cons r]

end tally

/-! ## Merging -/

/-- The report `out` merges `l`: it has exactly one trace for each stack of `l`,
    with the sizes and the number of the traces of that stack, the largest one
    first. -/
structure Merged (l out : List Trace) : Prop where
  once : out.Pairwise fun x y => x.key ≠ y.key
  every : ∀ t ∈ l, ∃ m ∈ out, m.key = t.key
  only : ∀ m ∈ out, ∃ t ∈ l, t.key = m.key
  size : ∀ m ∈ out, m.size = ((l.filter (·.key = m.key)).map Trace.size).sum
  count : ∀ m ∈ out, m.count = (l.filter (·.key = m.key)).length
  ordered : out.Pairwise fun x y => y.size ≤ x.size

/-- Each stack is in one trace from the start, or ties are transitive and no
    trace that ties with one of two traces of the same stack, without having
    that stack, is between them. -/
def Mergeable (l : List Trace) : Prop :=
  (l.map Trace.key).Nodup ∨ Orders Trace.lt l ∧ ContigTies Trace.lt Trace.key l

theorem larger_orders (l : List Trace) : Orders Trace.larger l where
  asymm x _ y _ h := by
    simp only [Trace.larger, decide_eq_true_eq, decide_eq_false_iff_not] at *
    omega
  cotrans x _ y _ z _ h := by
    simp only [Trace.larger, decide_eq_true_eq] at *
    omega

theorem mergeReport_eq (S : ListSort) {l : List Trace} (hne : l ≠ []) : ∃ r ts,
    S.sort Trace.lt l = r :: ts ∧ (r :: ts).Perm l ∧
      mergeReport S l = some (S.sort Trace.larger (mergeLoop r ts)) := by
  have hp := S.perm Trace.lt l
  rcases e : S.sort Trace.lt l with _ | ⟨r, ts⟩
  · rw [e] at hp
    exact absurd hp.symm.eq_nil hne
  · rw [e] at hp
    exact ⟨r, ts, rfl, hp, by rw [mergeReport, e]⟩

/-- The result merges the report iff sorting left equal stacks side by side. -/
theorem merged_iff (S : StableSort) {l : List Trace} (hcount : ∀ t ∈ l, t.count = 1) {r : Trace}
    {ts : List Trace} (hp : (r :: ts).Perm l) :
    Merged l (S.sort Trace.larger (mergeLoop r ts)) ↔ Contig Trace.key (r :: ts) := by
  have hperm := S.perm Trace.larger (mergeLoop r ts)
  rw [← mergeLoop_nodup, ← (hperm.map Trace.key).nodup_iff, List.nodup_iff_pairwise_ne]
  constructor
  · intro h
    exact List.pairwise_map.2 h.once
  · intro h
    have hone : ∀ (f : Trace → ℕ), ∀ m ∈ S.sort Trace.larger (mergeLoop r ts),
        f m = tally (·.key = m.key) f (mergeLoop r ts) := by
      intro f m hm
      rw [← tally_perm hperm, tally_key h hm]
    constructor
    case once => exact List.pairwise_map.1 h
    case every =>
      intro t ht
      have hk := mem_mergeLoop_key.2 (List.mem_map_of_mem (hp.mem_iff.2 ht))
      obtain ⟨m, hm, e⟩ := List.mem_map.1 hk
      exact ⟨m, hperm.mem_iff.2 hm, e⟩
    case only =>
      intro m hm
      have hk := mem_mergeLoop_key.1 (List.mem_map_of_mem (hperm.mem_iff.1 hm))
      obtain ⟨t, ht, e⟩ := List.mem_map.1 hk
      exact ⟨t, hp.mem_iff.1 ht, e⟩
    case size =>
      intro m hm
      rw [hone Trace.size m hm, mergeLoop_size (· = m.key), tally_perm hp]
      rfl
    case count =>
      intro m hm
      have hts : ∀ t ∈ ts, t.count = 1 :=
        fun t ht => hcount t (hp.mem_iff.1 (List.mem_cons_of_mem _ ht))
      rw [hone Trace.count m hm, mergeLoop_count (· = m.key) hts, tally_perm hp, tally_ones hcount]
    case ordered =>
      refine (S.sorted (larger_orders _)).imp fun {x y} hxy => ?_
      simpa [Trace.larger] using hxy

/-- **Merging** leaves one trace for each stack, with any stable sort, iff the
    traces are `Mergeable`. -/
theorem mergeReport_iff {l : List Trace} (hne : l ≠ []) (hcount : ∀ t ∈ l, t.count = 1) :
    (∀ S : StableSort, ∃ out, mergeReport S.toListSort l = some out ∧ Merged l out)
      ↔ Mergeable l := by
  rw [Mergeable, ← contig_sort_iff Trace.lt_congr Trace.lt_asymm]
  refine forall_congr' fun S => ?_
  obtain ⟨r, ts, hsort, hp, hrun⟩ := mergeReport_eq S.toListSort hne
  rw [hrun, hsort, ← merged_iff S hcount hp]
  simp

/-- A block of one frame. -/
def oneFrame (id pc : Char) (path : List Char) : Trace :=
  ⟨['0', 'x', id], 8, 1, [⟨['0', 'x', pc], path, ['f']⟩]⟩

/-- A stack, another one that compares with it, and the first one again. -/
def apartReport : List Trace :=
  [oneFrame '1' '4' ['/', 'a'], oneFrame '2' '5' ['/', 'b'], oneFrame '3' '4' ['/', 'a']]

theorem mergeReport_apart : Mergeable apartReport ∧ ∀ S : StableSort,
    ∃ out, mergeReport S.toListSort apartReport = some out ∧ Merged apartReport out := by
  have hm : Mergeable apartReport := by
    refine Or.inr ⟨by decide, ?_⟩
    intro x y z hs hxz hxy
    obtain ⟨rfl, rfl, rfl⟩ : x = oneFrame '1' '4' ['/', 'a'] ∧ y = oneFrame '2' '5' ['/', 'b'] ∧
        z = oneFrame '3' '4' ['/', 'a'] := by
      simpa [apartReport] using hs.eq_of_length rfl
    exact absurd hxy (by decide)
  exact ⟨hm, (mergeReport_iff (by decide) (by decide)).2 hm⟩

/-- A stack, another one at the same address of another file, and the first one
    again. -/
def tiedReport : List Trace :=
  [oneFrame '1' '4' ['/', 'a'], oneFrame '2' '4' ['/', 'b'], oneFrame '3' '4' ['/', 'a']]

/-- **A tie separates the two traces** of a stack: both are left. -/
theorem mergeReport_tied : ¬ ∃ (S : StableSort) (out : List Trace),
    mergeReport S.toListSort tiedReport = some out ∧ Merged tiedReport out := by
  have hne : tiedReport ≠ [] := by decide
  rintro ⟨S, out, hout, hm⟩
  obtain ⟨r, ts, hsort, hp, hrun⟩ := mergeReport_eq S.toListSort hne
  obtain rfl := Option.some.inj (hrun ▸ hout)
  rw [merged_iff S (by decide) hp, ← hsort,
    contig_sort_of_orders S (by decide) Trace.lt_congr] at hm
  have hkey := hm _ _ _ (List.Sublist.refl tiedReport) rfl (by decide)
  exact absurd hkey (by decide)

end Raphael.Script
