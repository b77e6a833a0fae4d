/-
  Mappings as sets of bytes: what the table says of them.

  A thread maps and unmaps whole pages through the proxies.  The kernel may map
  over what is mapped (`MAP_FIXED`) and unmaps any part of it.  An area is left
  by the next `munmap` of its start, whatever the length.

  * `Inv`: the table has a record of each area that is not left, at its start
    and with its length.
  * `mapped_iff`: the sizes of the records add up to the bytes mapped, in every
    state, iff no call maps over mapped bytes and each `munmap` releases just as
    many of them as the last area at its start had.
-/
import Raphael.Exec
import Raphael.Store
import Mathlib.Order.Interval.Finset.Nat

namespace Raphael

/-! ## The size of a table -/

/-- The sum of the sizes of the records. -/
def MemoryCache.total (c : MemoryCache) : ℕ :=
  ((allBuckets.flatMap c.bucket).map (·.size.toNat)).sum

/-- The size of the record that `remove` would drop. -/
def MemoryCache.front (c : MemoryCache) (a : Word) : ℕ :=
  ((c.held a).head?.map (·.size.toNat)).getD 0

theorem Refines.total {c : MemoryCache} {s : Store} (R : Refines c s) :
    c.total = (s.map (·.size.toNat)).sum := by
  have hb : c.bucket = s.bucket := funext R.bucket
  rw [MemoryCache.total, hb]
  exact (s.inOrder_perm.map _).sum_nat

/-- What is erased is the first of those that pass. -/
theorem sum_eraseP {α : Type} (p : α → Bool) (f : α → ℕ) (l : List α) :
    ((l.eraseP p).map f).sum + ((l.filter p).head?.map f).getD 0 = (l.map f).sum := by
  induction l with
  | nil => rfl
  | cons x l ih =>
    by_cases hx : p x
    · rw [List.eraseP_cons_of_pos hx, List.filter_cons_of_pos hx, List.map_cons, List.sum_cons,
        Nat.add_comm]
      rfl
    · rw [List.eraseP_cons_of_neg hx, List.filter_cons_of_neg hx, List.map_cons, List.map_cons,
        List.sum_cons, List.sum_cons, Nat.add_assoc, ih]

namespace MemoryCache.Wf
variable {c c' : MemoryCache} {a n : Word} {bt : Backtrace}

theorem total_reset (hc : c.allocCache.mCount = allocCacheSize) : c.reset.total = 0 :=
  (Refines.reset hc).total

theorem total_insert (h : c.Wf) (hf : c.full = false) (e : c.insert a n bt = some c') :
    c'.total = c.total + (n.setWidth 32).toNat := by
  obtain ⟨s, R⟩ := h
  rw [(R.of_insert hf e).total, R.total, List.map_cons, List.sum_cons, Nat.add_comm]

theorem total_remove (h : c.Wf) (e : c.remove a = some c') : c'.total + c.front a = c.total := by
  obtain ⟨s, R⟩ := h
  rw [(R.of_remove e).total, R.total, MemoryCache.front, R.held]
  exact sum_eraseP _ _ s

end MemoryCache.Wf

/-! ## Calls and the kernel -/

namespace Mappings

def pageSize : ℕ := 4096

/-- `MAP_FIXED` -/
def mapFixed : BitVec 32 := 0x10

/-- The bytes of the area at `a` of `n` bytes. -/
def area (a n : Word) : Finset ℕ := Finset.Ico a.toNat (a.toNat + n.toNat)

/-- Whole pages of the address space, of less than 2^32 bytes. -/
structure Pages (a n : Word) : Prop where
  aligned : a.toNat % pageSize = 0
  whole : n.toNat % pageSize = 0
  small : n.toNat < 2 ^ 32
  inside : a.toNat + n.toNat ≤ 2 ^ 64

instance (a n : Word) : Decidable (Pages a n) :=
  decidable_of_iff (a.toNat % pageSize = 0 ∧ n.toNat % pageSize = 0 ∧ n.toNat < 2 ^ 32 ∧
      a.toNat + n.toNat ≤ 2 ^ 64)
    ⟨fun h => ⟨h.1, h.2.1, h.2.2.1, h.2.2.2⟩, fun h => ⟨h.1, h.2, h.3, h.4⟩⟩

/-- The kernel may return `r` from a mapping call: with `MAP_FIXED` the address
    asked for, else one where nothing is mapped. -/
def maps (mapped : Finset ℕ) (ptr size : Word) (flags : BitVec 32) (r : Word) : Prop :=
  r ≠ mapFailed ∧ Pages r size ∧
    if flags &&& mapFixed ≠ 0 then r = ptr else Disjoint (area r size) mapped

instance (mapped : Finset ℕ) (ptr size : Word) (flags : BitVec 32) (r : Word) :
    Decidable (maps mapped ptr size flags r) := inferInstanceAs (Decidable (_ ∧ _ ∧ _))

/-- The kernel may return `r` from the call, and that is a success. -/
def admits (mapped : Finset ℕ) (c : Call) (r : Word) : Bool :=
  match c with
  | .mmap ptr size _ flags _ _ | .mmap64 ptr size _ flags _ _ => maps mapped ptr size flags r
  | .munmap a n => r = 0 ∧ Pages a n
  | _ => false

/-- The bytes mapped through the proxies, after a call that returned `r`. -/
def kernel (mapped : Finset ℕ) (c : Call) (r : Word) : Finset ℕ :=
  match c with
  | .mmap _ size .. | .mmap64 _ size .. => mapped ∪ area r size
  | .munmap a n => mapped \ area a n
  | _ => mapped

/-- The areas after a call that returned `r`. -/
def areas (l : Word → List ℕ) (c : Call) (r : Word) : Word → List ℕ :=
  match c with
  | .mmap _ size .. | .mmap64 _ size .. => Function.update l r (size.toNat :: l r)
  | .munmap a _ => if a = 0 then l else Function.update l a (l a).tail
  | _ => l

/-- The thread and its table, the bytes that are mapped, and the lengths of the areas at
    each start that no `munmap` of it has left, the last one first. -/
structure Space where
  seq : Seq Unit
  mapped : Finset ℕ
  areas : Word → List ℕ

/-- No observer. -/
def observe : Event → Unit → Unit := fun _ γ => γ

/-- A successful call that calls nothing itself, with room left in the pool. -/
def step (g : Configs) (s : Space) (x : Call × Answers) : Option Space :=
  if admits s.mapped x.1 x.2.result ∧ s.seq.cache.full = false then
    (exec g observe (.leaf x.1 x.2) s.seq).map fun seq =>
      ⟨seq, kernel s.mapped x.1 x.2.result, areas s.areas x.1 x.2.result⟩
  else none

/-- Nothing is recorded and nothing mapped. -/
def init (c : MemoryCache) : Space := ⟨⟨c.reset, false, ()⟩, ∅, fun _ => []⟩

/-- The records add up to what is mapped. -/
def Exact (s : Space) : Prop := s.seq.cache.total = s.mapped.card

/-- The call maps nothing over mapped bytes, and releases as many of them as the last
    area at its start has.  `munmap` of the address 0 leaves none. -/
def Matched (s : Space) (x : Call × Answers) : Prop :=
  match x.1 with
  | .mmap _ size .. | .mmap64 _ size .. => Disjoint (area x.2.result size) s.mapped
  | .munmap a n => (s.mapped ∩ area a n).card = if a = 0 then 0 else (s.areas a).headD 0
  | _ => True

/-! ## One call -/

/-- What holds between calls: there is a record of each area. -/
structure Inv (s : Space) : Prop where
  wf : s.seq.cache.Wf
  guard : s.seq.guard = false
  held : ∀ a, (s.seq.cache.held a).map (·.size.toNat) = s.areas a

section call
variable {g : Configs} {s s' : Space} {ans : Answers}

theorem card_area {a n : Word} : (area a n).card = n.toNat := by
  rw [area, Nat.card_Ico]
  omega

theorem wf_insert {c c' : MemoryCache} {a n : Word} {bt : Backtrace} (h : c.Wf)
    (hf : c.full = false) (e : c.insert a n bt = some c') : c'.Wf := (h.held_insert hf e).1

/-- The record that an `munmap` drops has the length of the last area. -/
theorem Inv.front (h : Inv s) (a : Word) : s.seq.cache.front a = (s.areas a).headD 0 := by
  rw [MemoryCache.front, ← h.held, List.headD_eq_head?_getD, List.head?_map]

/-- **A mapping** adds its length to the records, and its bytes to the mapped
    ones. -/
theorem map_exact (h : Inv s) (hp : Exact s) {size : Word} {cache : MemoryCache}
    (hfree : s.seq.cache.full = false) (hsmall : size.toNat < 2 ^ 32)
    (e : s.seq.cache.insert ans.result size ans.backtrace = some cache) :
    cache.total = (s.mapped ∪ area ans.result size).card ↔
      Disjoint (area ans.result size) s.mapped := by
  have hsize : (size.setWidth 32).toNat = size.toNat := by
    rw [BitVec.toNat_setWidth, Nat.mod_eq_of_lt hsmall]
  have hcard := Finset.card_union_add_card_inter s.mapped (area ans.result size)
  rw [card_area] at hcard
  rw [h.wf.total_insert hfree e, hsize, hp, Finset.disjoint_iff_inter_eq_empty, Finset.inter_comm,
    ← Finset.card_eq_zero]
  omega

/-- **An unmapping** takes what is dropped from the records, and the bytes it
    releases from the mapped ones. -/
theorem unmap_exact (hp : Exact s) {a n : Word} {total dropped : ℕ}
    (e : total + dropped = s.seq.cache.total) :
    total = (s.mapped \ area a n).card ↔ (s.mapped ∩ area a n).card = dropped := by
  have hcard := Finset.card_sdiff_add_card_inter s.mapped (area a n)
  rw [hp] at e
  omega

theorem admits_watched (hv : g.isVss) {c : Call} {r : Word} {mapped : Finset ℕ}
    (h : admits mapped c r) : c.watched g := by
  cases c with
  | mmap | mmap64 | munmap => exact hv
  | _ => cases h

theorem step_some {x : Call × Answers} (e : step g s x = some s') :
    admits s.mapped x.1 x.2.result ∧ s.seq.cache.full = false ∧
      exec g observe (.leaf x.1 x.2) s.seq = some s'.seq ∧
      s'.mapped = kernel s.mapped x.1 x.2.result ∧ s'.areas = areas s.areas x.1 x.2.result := by
  unfold step at e
  split_ifs at e with had
  obtain ⟨seq, hexec, rfl⟩ := Option.map_eq_some_iff.1 e
  exact ⟨had.1, had.2, hexec, rfl, rfl⟩

/-- The new record is that of the new area. -/
theorem Inv.map (h : Inv s) (hfree : s.seq.cache.full = false) {size : Word} {q : Seq Unit}
    (hsmall : size.toNat < 2 ^ 32) (hq : q.guard = false)
    (e : s.seq.cache.insert ans.result size ans.backtrace = some q.cache) (mapped : Finset ℕ) :
    Inv ⟨q, mapped, Function.update s.areas ans.result (size.toNat :: s.areas ans.result)⟩ := by
  obtain ⟨hwf, hheld⟩ := h.wf.held_insert hfree e
  refine ⟨hwf, hq, fun a => ?_⟩
  dsimp only
  rw [hheld a]
  by_cases ha : ans.result = a
  · subst ha
    rw [if_pos rfl, Function.update_self, List.map_cons, h.held, BitVec.toNat_setWidth,
      Nat.mod_eq_of_lt hsmall]
  · rw [if_neg ha, Function.update_of_ne (Ne.symm ha), h.held]

/-- The record that is dropped is that of the area that is left. -/
theorem Inv.unmap (h : Inv s) {a : Word} {q : Seq Unit} (hq : q.guard = false)
    (e : s.seq.cache.remove a = some q.cache) (mapped : Finset ℕ) :
    Inv ⟨q, mapped, Function.update s.areas a (s.areas a).tail⟩ := by
  obtain ⟨hwf, hheld⟩ := h.wf.held_remove e
  refine ⟨hwf, hq, fun b => ?_⟩
  dsimp only
  rw [hheld b]
  by_cases hb : a = b
  · subst hb
    rw [if_pos rfl, Function.update_self, List.map_tail, h.held]
  · rw [if_neg hb, Function.update_of_ne (Ne.symm hb), h.held]

/-- **One call** keeps the numbers equal iff it is `Matched`. -/
theorem step_spec (hv : g.isVss) {x : Call × Answers} (h : Inv s) (hp : Exact s)
    (e : step g s x = some s') : Inv s' ∧ (Exact s' ↔ Matched s x) := by
  obtain ⟨c, ans⟩ := x
  obtain ⟨seq, mapped, l⟩ := s'
  obtain ⟨had, hfree, hexec, rfl, rfl⟩ := step_some e
  have hw := admits_watched hv had
  have hexit := Call.ne_exit hw
  have hguard : seq.guard = false := exec_leaf_guard hexit h.guard hexec
  have hcache : (exec g observe (.leaf c ans) s.seq).map Seq.cache = _ := exec_leaf hexit h.guard
  rw [hexec, Option.map_some, Call.accesses_eq hw] at hcache
  cases c with
  | mmap ptr size port flags fd offset | mmap64 ptr size port flags fd offset =>
    have hmaps : maps s.mapped ptr size flags ans.result := of_decide_eq_true had
    have hr := hmaps.1
    have hins : s.seq.cache.insert ans.result size ans.backtrace = some seq.cache := by
      simpa [Call.effects, Call.released, Call.obtains, Call.passes, Call.isMap, Call.size, hr,
        Act.run] using hcache.symm
    exact ⟨h.map hfree hmaps.2.1.small hguard hins _, map_exact h hp hfree hmaps.2.1.small hins⟩
  | munmap a n =>
    obtain ⟨hr, -⟩ : ans.result = 0 ∧ Pages a n := of_decide_eq_true had
    by_cases ha : a = 0
    · have hsame : s.seq.cache = seq.cache := by
        have ha : a = 0#64 := ha
        simpa [Call.effects, Call.released, Call.obtains, hr, ha, Option.filter] using hcache.symm
      simp only [Matched, areas, if_pos ha]
      refine ⟨⟨hsame ▸ h.wf, hguard, fun b => hsame ▸ h.held b⟩, unmap_exact hp ?_⟩
      rw [← hsame, Nat.add_zero]
    · have hrem : s.seq.cache.remove a = some seq.cache := by
        have ha : ¬ a = 0#64 := ha
        simpa [Call.effects, Call.released, Call.obtains, hr, ha, Option.filter, Act.run]
          using hcache.symm
      simp only [Matched, areas, if_neg ha]
      refine ⟨h.unmap hguard hrem _, unmap_exact hp ?_⟩
      rw [← h.front]
      exact h.wf.total_remove hrem
  | _ => cases had

/-- Accesses with backtraces that fit end. -/
theorem run_isSome {bt : Backtrace} (hbt : bt.depth.toNat ≤ maxTraceDepth) {l : List Act}
    (hl : ∀ a n b, Act.insert a n b ∈ l → b = bt) {c : MemoryCache} (h : c.Wf) :
    ∃ c', l.foldlM Act.run c = some c' := by
  induction l generalizing c with
  | nil => exact ⟨c, rfl⟩
  | cons x l ih =>
    have hl' : ∀ a n b, Act.insert a n b ∈ l → b = bt :=
      fun a n b hb => hl a n b (List.mem_cons_of_mem x hb)
    cases x with
    | insert a n b =>
      obtain rfl := hl a n b List.mem_cons_self
      obtain ⟨c₁, e⟩ := h.insert_isSome (a := a) (n := n) hbt
      have hwf : c₁.Wf := by
        cases hf : c.full with
        | true => exact h.insert_of_full hf e ▸ h
        | false => exact wf_insert h hf e
      obtain ⟨c', e'⟩ := ih hl' hwf
      exact ⟨c', by rw [List.foldlM_cons, Act.run, e]; exact e'⟩
    | remove a =>
      obtain ⟨c₁, e⟩ := h.remove_isSome a
      obtain ⟨c', e'⟩ := ih hl' (h.held_remove e).1
      exact ⟨c', by rw [List.foldlM_cons, Act.run, e]; exact e'⟩

/-- A call that the kernel can answer, with room in the pool, is made. -/
theorem step_isSome (hv : g.isVss) (hfit : ans.Fits) {c : Call} (h : Inv s)
    (had : admits s.mapped c ans.result) (hfree : s.seq.cache.full = false) : ∃ seq, step g s (c, ans) =
      some ⟨seq, kernel s.mapped c ans.result, areas s.areas c ans.result⟩ := by
  have hw := admits_watched hv had
  have hcache : (exec g observe (.leaf c ans) s.seq).map Seq.cache = _ :=
    exec_leaf (Call.ne_exit hw) h.guard
  have hinserts : ∀ a n b, Act.insert a n b ∈ c.accesses g ans.backtrace ans.result →
      b = ans.backtrace := by
    intro a n b hb
    rw [Call.accesses_eq hw, Call.effects, List.mem_append] at hb
    rcases hb with hb | hb
    · simp at hb
    · split_ifs at hb <;> simp at hb
      exact hb.2.2
  obtain ⟨cache, e⟩ := run_isSome hfit hinserts h.wf
  rw [e] at hcache
  obtain ⟨seq, hexec, -⟩ := Option.map_eq_some_iff.1 hcache
  exact ⟨seq, by rw [step, if_pos ⟨had, hfree⟩, hexec]; rfl⟩

end call

/-! ## Runs -/

theorem init_inv {c : MemoryCache} (hc : c.allocCache.mCount = allocCacheSize) :
    Inv (init c) ∧ Exact (init c) :=
  ⟨⟨MemoryCache.Wf.reset hc, rfl, fun a => by
    show (c.reset.held a).map _ = []
    rw [MemoryCache.Wf.held_reset hc]
    rfl⟩, MemoryCache.Wf.total_reset hc⟩

/-- **The records add up to the bytes mapped**, in all states of exactly those
    runs whose calls are all `Matched`. -/
theorem mapped_iff {g : Configs} (hv : g.isVss) {c : MemoryCache}
    (hc : c.allocCache.mCount = allocCacheSize) {calls : List (Call × Answers)} {s' : Space}
    (h : Lts.run (step g) (init c) calls = some s') :
    (∀ calls₁ s₁, calls₁ <+: calls → Lts.run (step g) (init c) calls₁ = some s₁ → Exact s₁) ↔
      Lts.Along (step g) Matched (init c) calls :=
  Lts.along_iff (fun _ _ _ hi hp e => step_spec hv hi hp e) (init_inv hc).1 (init_inv hc).2 h

/-- Two pages at `0x10000`. -/
def mapTwo : Call × Answers := (.mmap 0x10000 0x2000 3 0x32 0 0, .of 0x10000)

/-- One page at `0x20000`. -/
def mapOther : Call × Answers := (.mmap64 0x20000 0x1000 3 0x32 0 0, .of 0x20000)

/-- A mapping that is released as a whole while another one stays, and then made again. -/
def remap : List (Call × Answers) :=
  [mapTwo, mapOther, (.munmap 0x10000 0x2000, .of 0), mapTwo]

theorem disjoint_other : Disjoint (area 0x20000 0x1000) (area 0x10000 0x2000) := by
  rw [Finset.disjoint_left]
  intro x h h'
  rw [area, Finset.mem_Ico] at h h'
  have h1 : 0x20000 ≤ x := h.1
  have h2 : x < 0x12000 := h'.2
  omega

theorem remap_matched : Lts.Along (step .both) Matched (init .blank) remap := by
  refine ⟨Finset.disjoint_empty_right _, fun s₁ e₁ => ?_⟩
  obtain ⟨-, -, -, hm₁, ha₁⟩ := step_some e₁
  have hm₁ : s₁.mapped = area 0x10000 0x2000 := hm₁.trans (Finset.empty_union _)
  refine ⟨?_, fun s₂ e₂ => ?_⟩
  · show Disjoint (area 0x20000 0x1000) s₁.mapped
    rw [hm₁]
    exact disjoint_other
  obtain ⟨-, -, -, hm₂, ha₂⟩ := step_some e₂
  have hm₂ : s₂.mapped = area 0x10000 0x2000 ∪ area 0x20000 0x1000 := by
    rw [hm₂, hm₁]
    rfl
  have hlast : s₂.areas 0x10000 = [0x2000] := by
    rw [ha₂, ha₁]
    rfl
  refine ⟨?_, fun s₃ e₃ => ?_⟩
  · show (s₂.mapped ∩ area 0x10000 0x2000).card = (s₂.areas 0x10000).headD 0
    rw [hm₂, Finset.inter_eq_right.2 Finset.subset_union_left, card_area, hlast]
    rfl
  obtain ⟨-, -, -, hm₃, -⟩ := step_some e₃
  refine ⟨?_, fun _ _ => trivial⟩
  show Disjoint (area 0x10000 0x2000) s₃.mapped
  rw [hm₃, hm₂]
  exact Finset.disjoint_sdiff

theorem mapped_remap : ∃ s, Lts.run (step .both) (init .blank) remap = some s ∧
    ∀ calls s₁, calls <+: remap → Lts.run (step .both) (init .blank) calls = some s₁ →
      Exact s₁ := by
  have hrun : (Lts.run (step .both) (init .blank) remap).isSome = true := by decide +kernel
  obtain ⟨s, e⟩ := Option.isSome_iff_exists.1 hrun
  exact ⟨s, e, (mapped_iff rfl rfl e).2 remap_matched⟩

/-- The first page of the two is unmapped. -/
def unmapOne : Call × Answers := (.munmap 0x10000 0x1000, .of 0)

/-- **Unmapping a prefix** drops the record of the whole mapping. -/
theorem mapped_prefix : ¬ ∀ calls s, Lts.run (step .both) (init .blank) calls = some s →
    Exact s := by
  intro h
  have hrun : (Lts.run (step .both) (init .blank) [mapTwo, unmapOne]).isSome = true := by
    decide +kernel
  obtain ⟨s₂, e⟩ := Option.isSome_iff_exists.1 hrun
  obtain ⟨s₁, e₁, hrest⟩ := Lts.run_cons_some.1 e
  obtain ⟨s₂', e₂, ⟨⟩⟩ := Lts.run_cons_some.1 hrest
  have hinit := init_inv (c := .blank) rfl
  have h₁ := step_spec rfl hinit.1 hinit.2 e₁
  obtain ⟨-, -, -, hm₁, ha₁⟩ := step_some e₁
  have hm₁ : s₁.mapped = area 0x10000 0x2000 := hm₁.trans (Finset.empty_union _)
  have hexact : Exact s₁ := h₁.2.2 (Finset.disjoint_empty_right _)
  have hmatched : (s₁.mapped ∩ area 0x10000 0x1000).card = (s₁.areas 0x10000).headD 0 :=
    (step_spec rfl h₁.1 hexact e₂).2.1 (h _ _ e)
  have hinter : area 0x10000 0x2000 ∩ area 0x10000 0x1000 = area 0x10000 0x1000 := by
    refine Finset.inter_eq_right.2 (Finset.Ico_subset_Ico le_rfl ?_)
    decide
  rw [hm₁, hinter, card_area, ha₁] at hmatched
  exact absurd hmatched (by decide)

end Mappings

end Raphael
