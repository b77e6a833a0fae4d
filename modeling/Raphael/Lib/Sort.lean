/-
  Sorting by a test "less than", as library sorts do it.

  A library promises of its sort that it only asks the test, that it answers
  with a permutation, and that the result is sorted and stable, if the test is a
  strict weak order of the elements (`Orders`).  For any other test only the
  permutation is left (`StableSort`).

  * `StableSort.filter_tied`: the elements that tie keep their order.
  * `contig_sort_iff`: equal keys end up side by side after every stable sort
    iff there are none, or the test orders the elements and no tie with another
    key stands between two equal ones.
-/
import Mathlib.Algebra.GroupWithZero.Nat
import Mathlib.Data.List.InsertIdx
import Mathlib.Data.List.Perm.Basic
import Mathlib.Tactic.Common

namespace Sorting

variable {α β : Type}

/-- `lt` is a strict weak order of the elements of `l`. -/
structure Orders (lt : α → α → Bool) (l : List α) : Prop where
  asymm : ∀ x ∈ l, ∀ y ∈ l, lt x y → lt y x = false
  cotrans : ∀ x ∈ l, ∀ y ∈ l, ∀ z ∈ l, lt x z → lt x y ∨ lt y z

instance (lt : α → α → Bool) (l : List α) : Decidable (Orders lt l) :=
  decidable_of_iff ((∀ x ∈ l, ∀ y ∈ l, lt x y → lt y x = false) ∧
      ∀ x ∈ l, ∀ y ∈ l, ∀ z ∈ l, lt x z → lt x y ∨ lt y z)
    ⟨fun h => ⟨h.1, h.2⟩, fun h => ⟨h.1, h.2⟩⟩

/-- `x` and `y` tie. -/
def Tied (lt : α → α → Bool) (x y : α) : Prop := lt x y = false ∧ lt y x = false

instance (lt : α → α → Bool) (x y : α) : Decidable (Tied lt x y) :=
  inferInstanceAs (Decidable (_ ∧ _))

/-- A sort that answers with a permutation. -/
structure ListSort where
  sort : {α : Type} → (α → α → Bool) → List α → List α
  perm : ∀ {α : Type} (lt : α → α → Bool) (l : List α), (sort lt l).Perm l

/-- A stable sort that only asks `lt`. -/
structure StableSort extends ListSort where
  natural : ∀ {α β : Type} (f : α → β) (lt : β → β → Bool) (l : List α),
    sort lt (l.map f) = (sort (fun x y => lt (f x) (f y)) l).map f
  sorted : ∀ {α : Type} {lt : α → α → Bool} {l : List α}, Orders lt l →
    (sort lt l).Pairwise fun x y => lt y x = false
  stable : ∀ {α : Type} {lt : α → α → Bool} {l c : List α}, Orders lt l → c.Sublist l →
    (c.Pairwise fun x y => lt y x = false) → c.Sublist (sort lt l)

namespace Orders
variable {lt : α → α → Bool} {l : List α}

theorem map_iff {f : β → α} {l : List β} :
    Orders lt (l.map f) ↔ Orders (fun x y => lt (f x) (f y)) l := by
  constructor
  · intro h
    refine ⟨fun x hx y hy => ?_, fun x hx y hy z hz => ?_⟩
    · exact h.asymm _ (List.mem_map_of_mem hx) _ (List.mem_map_of_mem hy)
    · exact h.cotrans _ (List.mem_map_of_mem hx) _ (List.mem_map_of_mem hy) _
        (List.mem_map_of_mem hz)
  · intro h
    constructor
    · simpa using h.asymm
    · simpa using h.cotrans

theorem tied_trans (h : Orders lt l) {x y z : α} (hx : x ∈ l) (hy : y ∈ l) (hz : z ∈ l)
    (hxy : Tied lt x y) (hyz : Tied lt y z) : Tied lt x z := by
  constructor
  · by_contra hlt
    rcases h.cotrans x hx y hy z hz (by simpa using hlt) with h | h
    · simp [hxy.1] at h
    · simp [hyz.1] at h
  · by_contra hlt
    rcases h.cotrans z hz y hy x hx (by simpa using hlt) with h | h
    · simp [hyz.2] at h
    · simp [hxy.2] at h

end Orders

/-! ## Merge sort -/

section merge
variable {lt : α → α → Bool} {l : List α}

/-- The sort of Lean's library, by "not less". -/
def merge (lt : α → α → Bool) (l : List α) : List α := l.mergeSort fun x y => !lt y x

theorem merge_map (f : β → α) (l : List β) :
    merge lt (l.map f) = (merge (fun x y => lt (f x) (f y)) l).map f := by
  rw [merge, merge, List.map_mergeSort]
  intro x _ y _
  rfl

/-- On the elements of the list alone the test is a preorder. -/
theorem merge_attach (l : List α) :
    (merge (fun x y : { x // x ∈ l } => lt x.1 y.1) l.attach).map Subtype.val = merge lt l := by
  rw [← merge_map, List.attach_map_subtype_val]

theorem attach_trans (h : Orders lt l) (x y z : { x // x ∈ l }) :
    (!lt y.1 x.1) → (!lt z.1 y.1) → !lt z.1 x.1 := by
  intro hxy hyz
  by_contra hlt
  rcases h.cotrans z.1 z.2 y.1 y.2 x.1 x.2 (by simpa using hlt) with h | h
  · simp [h] at hyz
  · simp [h] at hxy

theorem attach_total (h : Orders lt l) (x y : { x // x ∈ l }) :
    (!lt y.1 x.1) || !lt x.1 y.1 := by
  by_cases hlt : lt x.1 y.1
  · simp [h.asymm x.1 x.2 y.1 y.2 hlt]
  · simp [hlt]

theorem merge_sorted (h : Orders lt l) : (merge lt l).Pairwise fun x y => lt y x = false := by
  rw [← merge_attach, List.pairwise_map]
  have := List.pairwise_mergeSort (attach_trans h) (attach_total h) l.attach
  exact this.imp fun hxy => by simpa using hxy

theorem merge_stable {c : List α} (h : Orders lt l) (hc : c.Sublist l)
    (hp : c.Pairwise fun x y => lt y x = false) : c.Sublist (merge lt l) := by
  rw [← l.attach_map_subtype_val] at hc
  obtain ⟨c', hc', rfl⟩ := List.sublist_map_iff.1 hc
  rw [← merge_attach]
  refine List.Sublist.map _ (List.sublist_mergeSort (attach_trans h) (attach_total h) ?_ hc')
  rw [List.pairwise_map] at hp
  exact hp.imp fun hxy => by simp [hxy]

end merge

/-! ## A sort that shuffles what has no order -/

/-- Move the element number `i` to the front. -/
def front (i : ℕ) (l : List α) : List α :=
  match l[i]? with
  | none => l
  | some x => x :: l.eraseIdx i

theorem front_perm (i : ℕ) (l : List α) : (front i l).Perm l := by
  unfold front
  split
  · exact List.Perm.refl l
  · next x h =>
    obtain ⟨hi, rfl⟩ := List.getElem?_eq_some_iff.1 h
    exact List.getElem_cons_eraseIdx_perm hi

theorem front_map (f : α → β) (i : ℕ) (l : List α) : front i (l.map f) = (front i l).map f := by
  unfold front
  rw [List.getElem?_map]
  cases l[i]? with
  | none => rfl
  | some x => simp [List.eraseIdx_map]

theorem front_append (l₁ : List α) (x : α) (l₂ : List α) :
    front l₁.length (l₁ ++ x :: l₂) = x :: (l₁ ++ l₂) := by
  simp [front, List.eraseIdx_append_of_length_le]

/-- Merge sort where the test orders the elements, else two elements to the
    front. -/
def shuffle (i j : ℕ) : StableSort where
  sort lt l := if Orders lt l then merge lt l else front j (front i l)
  perm lt l := by
    split
    · exact List.mergeSort_perm ..
    · exact (front_perm j _).trans (front_perm i l)
  natural f lt l := by
    simp only [Orders.map_iff, merge_map, front_map]
    split <;> rfl
  sorted h := by
    rw [if_pos h]
    exact merge_sorted h
  stable h hc hp := by
    rw [if_pos h]
    exact merge_stable h hc hp

/-! ## Ties -/

namespace StableSort
variable {lt : α → α → Bool} {l : List α}

theorem mem_sort (S : StableSort) {x : α} : x ∈ S.sort lt l ↔ x ∈ l := (S.perm lt l).mem_iff

/-- **Ties keep their order.** -/
theorem filter_tied (S : StableSort) (h : Orders lt l) {x : α} (hx : x ∈ l) :
    (S.sort lt l).filter (Tied lt x ·) = l.filter (Tied lt x ·) := by
  have hties : (l.filter (Tied lt x ·)).Pairwise fun y z => lt z y = false := by
    refine List.pairwise_of_forall_mem_list fun y hy z hz => ?_
    obtain ⟨hy, hxy⟩ := List.mem_filter.1 hy
    obtain ⟨hz, hxz⟩ := List.mem_filter.1 hz
    have hxy : Tied lt x y := by simpa using hxy
    have hxz : Tied lt x z := by simpa using hxz
    exact (h.tied_trans hz hx hy ⟨hxz.2, hxz.1⟩ hxy).1
  have hsub := (S.stable h List.filter_sublist hties).filter (Tied lt x ·)
  rw [List.filter_filter] at hsub
  simp only [Bool.and_self] at hsub
  exact (hsub.eq_of_length ((S.perm lt l).filter _).length_eq.symm).symm

end StableSort

/-! ## Equal keys side by side -/

section keys
variable {κ : Type} {lt : α → α → Bool} {key : α → κ} {l : List α}

/-- Equal keys stand side by side. -/
def Contig (key : α → κ) (l : List α) : Prop :=
  ∀ x y z, [x, y, z].Sublist l → key x = key z → key y = key x

theorem contig_cons {x : α} : Contig key (x :: l) ↔
    Contig key l ∧ ∀ y z, [y, z].Sublist l → key x = key z → key y = key x := by
  constructor
  · intro h
    exact ⟨fun u v w hs => h u v w (hs.cons x), fun y z hs => h x y z (hs.cons_cons x)⟩
  · rintro ⟨h, hx⟩ u v w hs huw
    rcases List.sublist_cons_iff.1 hs with hs | ⟨_, e, hs⟩
    · exact h u v w hs huw
    · obtain ⟨rfl, rfl⟩ := List.cons.inj e
      exact hx v w hs huw

/-- A neighbour of the same key changes nothing. -/
theorem contig_cons_cons_eq {x y z : α} (hy : key x = key y) (hz : key z = key x) :
    Contig key (x :: y :: l) ↔ Contig key (z :: l) := by
  rw [contig_cons, contig_cons, contig_cons]
  constructor
  · rintro ⟨⟨h, -⟩, hx⟩
    exact ⟨h, fun u v hs e => hz ▸ hx u v (hs.cons y) (hz ▸ e)⟩
  · rintro ⟨h, hx⟩
    refine ⟨⟨h, fun u v hs e => ?_⟩, fun u v hs e => ?_⟩
    · rw [← hy, ← hz]
      exact hx u v hs (by rw [hz, hy, e])
    · rcases List.sublist_cons_iff.1 hs with hs | ⟨_, e', -⟩
      · rw [← hz]
        exact hx u v hs (by rw [hz, e])
      · rw [(List.cons.inj e').1, hy]

/-- Behind a neighbour of another key the key must not come again. -/
theorem contig_cons_cons_ne {x y : α} (hne : key x ≠ key y) :
    Contig key (x :: y :: l) ↔ key x ∉ (y :: l).map key ∧ Contig key (y :: l) := by
  rw [contig_cons, and_comm]
  refine and_congr_left fun _ => ?_
  constructor
  · intro h hm
    obtain ⟨z, hz, e⟩ := List.mem_map.1 hm
    rcases List.mem_cons.1 hz with rfl | hz
    · exact hne e.symm
    · exact hne (h y z ((List.singleton_sublist.2 hz).cons_cons y) e.symm).symm
  · intro h u v hs e
    exact absurd (e ▸ List.mem_map_of_mem (hs.subset (by simp))) h

/-- No element between two of equal keys ties with them without having the key. -/
def ContigTies (lt : α → α → Bool) (key : α → κ) (l : List α) : Prop :=
  ∀ x y z, [x, y, z].Sublist l → key x = key z → Tied lt x y → key y = key x

theorem mem_three {x y z : α} (h : [x, y, z].Sublist l) : x ∈ l ∧ y ∈ l ∧ z ∈ l :=
  ⟨h.subset (by simp), h.subset (by simp), h.subset (by simp)⟩

/-- Where the test orders the elements, every stable sort brings equal keys
    together iff no tie separates them. -/
theorem contig_sort_of_orders (S : StableSort) (h : Orders lt l)
    (hkey : ∀ x x' y y', key x = key x' → key y = key y' → lt x y = lt x' y') :
    Contig key (S.sort lt l) ↔ ContigTies lt key l := by
  have hirr : ∀ x z, key x = key z → x ∈ l → Tied lt x z := by
    intro x z hxz hx
    have hxx : lt x x = false := by
      by_contra hlt
      have := h.asymm x hx x hx (by simpa using hlt)
      exact hlt this
    exact ⟨hkey x x x z rfl hxz ▸ hxx, hkey x z x x hxz rfl ▸ hxx⟩
  constructor
  · intro hc x y z hs hxz hxy
    obtain ⟨hx, hy, hz⟩ := mem_three hs
    have hyz := h.tied_trans hy hx hz ⟨hxy.2, hxy.1⟩ (hirr x z hxz hx)
    refine hc x y z (S.stable h hs ?_) hxz
    simp [hxy.2, hyz.2, (hirr x z hxz hx).2]
  · intro hc x y z hs hxz
    have hsorted := (S.sorted h).sublist hs
    simp only [List.pairwise_cons, List.mem_cons, List.not_mem_nil, or_false, forall_eq_or_imp,
      forall_eq] at hsorted
    obtain ⟨⟨hyx, -⟩, hzy, -⟩ := hsorted
    obtain ⟨hx, hy, hz⟩ := mem_three hs
    rw [S.mem_sort] at hx hy hz
    -- `x` and `z` tie, so `y` between them does as well
    have hxy : Tied lt x y := ⟨hkey z x y y hxz.symm rfl ▸ hzy, hyx⟩
    refine hc x y z ?_ hxz hxy
    have hall : [x, y, z].filter (Tied lt x ·) = [x, y, z] := by
      simp [hxy, hirr x x rfl hx, hirr x z hxz hx]
    have hf := hs.filter (Tied lt x ·)
    rw [S.filter_tied h hx, hall] at hf
    exact hf.trans List.filter_sublist

/-- If two elements have a key, and another one has not, some move to the front
    puts the other one between them. -/
theorem exists_apart {x z y : α} (hs : [x, z].Sublist l) (hxz : key x = key z) (hy : y ∈ l)
    (hyx : key y ≠ key x) : ∃ i j, ¬ Contig key (front j (front i l)) := by
  classical
  obtain ⟨l₁, l₂, rfl⟩ := List.append_of_mem hy
  have hs' : [x, z].Sublist (l₁ ++ l₂) := by
    have hf := hs.filter (key · = key x)
    have hout : (l₁ ++ y :: l₂).filter (key · = key x) = (l₁ ++ l₂).filter (key · = key x) := by
      simp [hyx]
    rw [hout, List.filter_eq_self.2 (by simp [hxz])] at hf
    exact hf.trans List.filter_sublist
  obtain ⟨r₁, r₂, e, hx, hz⟩ := List.cons_sublist_iff.1 hs'
  obtain ⟨m₁, m, rfl⟩ := List.append_of_mem hx
  rw [List.append_assoc, List.cons_append] at e
  refine ⟨l₁.length, (y :: m₁).length, ?_⟩
  rw [front_append, e, ← List.cons_append, front_append]
  intro hc
  refine hyx (hc x y z ?_ hxz)
  refine List.Sublist.cons_cons x ?_
  rw [List.cons_append]
  exact (hz.trans ((List.sublist_append_right m r₂).trans
    (List.sublist_append_right m₁ _))).cons_cons y

/-- **Sorting brings equal keys together**, by every stable sort, iff there are
    none or the test orders the elements and no tie separates them. -/
theorem contig_sort_iff
    (hkey : ∀ x x' y y', key x = key x' → key y = key y' → lt x y = lt x' y')
    (hasymm : ∀ x y, lt x y → lt y x = false) :
    (∀ S : StableSort, Contig key (S.sort lt l)) ↔
      (l.map key).Nodup ∨ Orders lt l ∧ ContigTies lt key l := by
  constructor
  · intro h
    by_cases ho : Orders lt l
    · exact Or.inr ⟨ho, (contig_sort_of_orders (shuffle 0 0) ho hkey).1 (h _)⟩
    · refine Or.inl ?_
      by_contra hdup
      rw [List.nodup_iff_pairwise_ne, List.pairwise_map, List.pairwise_iff_forall_sublist] at hdup
      push Not at hdup
      obtain ⟨x, z, hs, hxz⟩ := hdup
      -- three elements that the test does not order have two keys
      obtain ⟨y, hy, hyx⟩ : ∃ y ∈ l, key y ≠ key x := by
        by_contra hno
        push Not at hno
        refine ho ⟨fun u _ v _ => hasymm u v, fun u hu v hv w hw huw => ?_⟩
        have huu := hkey w u u w ((hno w hw).trans (hno u hu).symm) ((hno u hu).trans (hno w hw).symm)
        simp [hasymm u w huw, huw] at huu
      obtain ⟨i, j, hc⟩ := exists_apart hs hxz hy hyx
      have hsort : (shuffle i j).sort lt l = front j (front i l) := if_neg ho
      exact hc (hsort ▸ h (shuffle i j))
  · rintro (hnd | ⟨ho, hc⟩) S
    · intro x y z hs hxz
      have hsort := (((S.perm lt l).map key).nodup_iff.2 hnd).sublist (hs.map key)
      simp [hxz] at hsort
    · exact (contig_sort_of_orders S ho hkey).2 hc

end keys

/-! ## Sums over a part of a list -/

section tally
variable {p : α → Bool} {f : α → ℕ} {l l' : List α}

/-- The sum of `f` over the elements that pass `p`. -/
def tally (p : α → Bool) (f : α → ℕ) (l : List α) : ℕ := ((l.filter p).map f).sum

theorem tally_cons (x : α) : tally p f (x :: l) = (if p x then f x else 0) + tally p f l := by
  unfold tally
  by_cases h : p x <;> simp [h]

theorem tally_perm (h : l.Perm l') : tally p f l = tally p f l' := ((h.filter p).map f).sum_nat

theorem tally_true : tally (fun _ => true) f l = (l.map f).sum := by
  rw [tally, List.filter_true]

/-- Each element counts for one. -/
theorem tally_ones (h : ∀ x ∈ l, f x = 1) : tally p f l = (l.filter p).length := by
  have hones : (l.filter p).map f = List.replicate (l.filter p).length 1 := by
    rw [List.eq_replicate_iff]
    refine ⟨List.length_map _, fun n hn => ?_⟩
    obtain ⟨x, hx, rfl⟩ := List.mem_map.1 hn
    exact h x (List.mem_filter.1 hx).1
  rw [tally, hones, List.sum_replicate_nat, Nat.mul_one]

/-- Where all keys are different, an element is the sum over its key. -/
theorem tally_key {κ : Type} [DecidableEq κ] {key : α → κ} (h : (l.map key).Nodup) {x : α}
    (hx : x ∈ l) : tally (key · = key x) f l = f x := by
  induction l with
  | nil => simp at hx
  | cons y l ih =>
    obtain ⟨hy, h⟩ := List.nodup_cons.1 h
    rw [tally_cons]
    rcases List.mem_cons.1 hx with rfl | hx
    · have hnone : l.filter (key · = key x) = [] := by
        rw [List.filter_eq_nil_iff]
        intro z hz hkey
        exact hy (List.mem_map.2 ⟨z, hz, by simpa using hkey⟩)
      simp [tally, hnone]
    · have hne : key y ≠ key x := fun e => hy (e ▸ List.mem_map_of_mem hx)
      simp [hne, ih h hx]

end tally

end Sorting
