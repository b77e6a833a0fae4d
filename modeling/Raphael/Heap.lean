/-
  The heap calls of one thread against the record table.

  The heap is the map of the live blocks, each with the call that obtained it
  last; `Heap.step` is what an allocator may do.  The observer only watches for
  an insertion that finds the pool full.

  * `access_insert`, `access_remove`, `effects_spec`: what the accesses of a
    call do to the records of each address.
  * `heap_exact`: every sequence of heap calls runs to its end, and the table
    records exactly the live blocks from `limit` bytes on.
-/
import Raphael.Client
import Raphael.Exec
import Raphael.Store

namespace Raphael

/-- The live blocks, with the call that obtained each of them last. -/
abbrev Heap := Word → Option Call

namespace Heap

/-- The program may make this heap call, which returns `r`: it passes NULL or a
    live block and asks for less than 2^32 bytes; a `calloc` whose product does
    not fit `size_t` returns NULL. -/
def admits (heap : Heap) (c : Call) (r : Word) : Bool :=
  match c with
  | .malloc _ | .memalign .. => c.bytes < 2 ^ 32
  | .calloc .. => c.bytes < 2 ^ 32 || (2 ^ 64 ≤ c.bytes && r = 0)
  | .realloc ptr _ => (ptr = 0 || (heap ptr).isSome) && c.bytes < 2 ^ 32
  | .free address => address = 0 || (heap address).isSome
  | .mmap .. | .mmap64 .. | .munmap .. | .pthreadExit _ => false

/-- The heap after a call. -/
def step (heap : Heap) (x : Call × Answers) : Option Heap :=
  if heap.admits x.1 x.2.result then returned heap x.1 x.2.result x.1 else none

/-- The sizes that the table should hold for an address. -/
def expected (limit : BitVec 32) (heap : Heap) (a : Word) : List (BitVec 32) :=
  match heap a with
  | none => []
  | some c => if c.wanted limit then [c.size.setWidth 32] else []

/-- The observer: some insertion found the pool full. -/
def observe : Event → Bool → Bool
  | .insert _ _ _ full, seen => seen || full
  | _, seen => seen

end Heap

/-- The original of the call failed. -/
def Call.fails (r : Word) : Call → Bool
  | malloc _ | calloc .. | memalign .. => r = 0
  | realloc _ size => r = 0 ∧ size ≠ 0
  | _ => false

namespace Heap
variable {s : Seq Bool} {c : Call}

theorem access_remove (hwf : s.cache.Wf) (a : Word) :
    ∃ s', s.access observe c (.remove a) = some s' ∧ s'.cache.Wf ∧ s'.ghost = s.ghost ∧
      (s.cache.full = false → s'.cache.full = false) ∧
        ∀ b, s'.cache.held b = if a = b then (s.cache.held b).tail else s.cache.held b := by
  obtain ⟨cache, e⟩ := hwf.remove_isSome a
  obtain ⟨hwf', h⟩ := hwf.held_remove e
  refine ⟨Seq.note observe (.remove a) { s with cache := cache }, ?_, hwf', rfl,
    fun hf => hwf.not_full_remove hf e, h⟩
  rw [Seq.access, e]; rfl

theorem access_insert (hwf : s.cache.Wf) {a n : Word} {bt : Backtrace}
    (hbt : bt.depth.toNat ≤ maxTraceDepth) :
    ∃ s', s.access observe c (.insert a n bt) = some s' ∧ s'.cache.Wf ∧
      s'.ghost = (s.ghost || s.cache.full) ∧ (s'.ghost = false → ∀ b, s'.cache.held b =
        if a = b then ⟨a, n.setWidth 32, bt.stored⟩ :: s.cache.held b else s.cache.held b) := by
  obtain ⟨cache, e⟩ := hwf.insert_isSome (a := a) (n := n) hbt
  refine ⟨Seq.note observe (.insert c a bt s.cache.full) { s with cache := cache }, ?_, ?_, rfl,
    fun hs => ?_⟩
  · rw [Seq.access, e]; rfl
  · by_cases hf : s.cache.full = true
    · simpa [Seq.note, hwf.insert_of_full hf e] using hwf
    · exact (hwf.held_insert (by simpa using hf) e).1
  · simp only [Seq.note, observe, Bool.or_eq_false_iff] at hs
    exact (hwf.held_insert hs.2 e).2

section effects
variable {p : Prop} [Decidable p] {bt : Backtrace} {r : Word}

/-- What the insertion of a call does to the records of an address. -/
theorem effects_insert (hwf : s.cache.Wf) (hbt : bt.depth.toNat ≤ maxTraceDepth) :
    ∃ s', (if p then [Act.insert r c.size bt] else []).foldlM (Seq.access observe c) s = some s' ∧
      s'.cache.Wf ∧ (s.ghost = false → s.cache.full = false → s'.ghost = false) ∧
      (s'.ghost = false → s.ghost = false ∧ ∀ b, s'.cache.held b =
        (if p ∧ b = r then [⟨r, c.size.setWidth 32, bt.stored⟩] else []) ++ s.cache.held b) := by
  by_cases h : p
  · obtain ⟨s', e, hwf', hfull, hs'⟩ := access_insert (c := c) (a := r) (n := c.size) hwf hbt
    refine ⟨s', by rw [if_pos h, List.foldlM_cons, e]; rfl, hwf', fun h₁ h₂ => ?_, fun hg => ?_⟩
    · rw [hfull, h₁, h₂]; rfl
    · rw [hfull, Bool.or_eq_false_iff] at hg
      refine ⟨hg.1, fun b => ?_⟩
      rw [hs' (by rw [hfull, hg.1, hg.2]; rfl) b]
      by_cases hb : r = b
      · rw [if_pos hb, if_pos ⟨h, hb.symm⟩]; rfl
      · rw [if_neg hb, if_neg fun h' => hb h'.2.symm]; rfl
  · refine ⟨s, by rw [if_neg h]; rfl, hwf, fun h _ => h, fun hg => ⟨hg, fun b => ?_⟩⟩
    rw [if_neg fun h' => h h'.1]; rfl

/-- What the accesses of a call do to the records of an address. -/
theorem effects_spec (hwf : s.cache.Wf) (hbt : bt.depth.toNat ≤ maxTraceDepth) :
    ∃ s', (c.effects p bt r).foldlM (Seq.access observe c) s = some s' ∧ s'.cache.Wf ∧
      (s.ghost = false → s.cache.full = false → s'.ghost = false) ∧
      (s'.ghost = false → s.ghost = false ∧ ∀ b, s'.cache.held b =
        (if p ∧ b = r then [⟨r, c.size.setWidth 32, bt.stored⟩] else []) ++
          if c.released r = some b ∧ b ≠ 0 then (s.cache.held b).tail else s.cache.held b) := by
  rw [Call.effects, List.foldlM_append]
  by_cases hr : ∃ a, c.released r = some a ∧ a ≠ 0
  · obtain ⟨a, ha, h0⟩ := hr
    obtain ⟨s₁, e₁, hwf₁, hg₁, hfree, h₁⟩ := access_remove (c := c) hwf a
    obtain ⟨s', e, hwf', hfull, hs'⟩ := effects_insert (c := c) (r := r) (p := p) hwf₁ hbt
    refine ⟨s', ?_, hwf', fun h h' => hfull (hg₁.trans h) (hfree h'),
      fun hg => ⟨hg₁ ▸ (hs' hg).1, fun b => ?_⟩⟩
    · have : (c.released r).filter (· ≠ 0) = some a := by
        rw [Option.filter_eq_some_iff]; exact ⟨ha, by simpa using h0⟩
      rw [this, Option.map_some, Option.toList_some, List.foldlM_cons, e₁]
      exact e
    · rw [(hs' hg).2 b, h₁ b, ha]
      congr 1
      by_cases hb : a = b
      · subst hb; rw [if_pos rfl, if_pos ⟨rfl, h0⟩]
      · rw [if_neg hb, if_neg fun h => hb (Option.some.inj h.1)]
  · obtain ⟨s', e, hwf', hfull, hs'⟩ := effects_insert (c := c) (r := r) (p := p) hwf hbt
    refine ⟨s', ?_, hwf', hfull, fun hg => ⟨(hs' hg).1, fun b => ?_⟩⟩
    · have : (c.released r).filter (· ≠ 0) = none := by
        rw [Option.filter_eq_none_iff]
        intro a ha h0
        exact hr ⟨a, ha, by simpa using h0⟩
      rw [this]
      exact e
    · rw [(hs' hg).2 b, if_neg fun h => hr ⟨b, h⟩]

end effects

variable {g : Configs} {ans : Answers}

/-- **What a call does** to the records of every address. -/
theorem exec_call (hc : c.watched g) (hfit : ans.Fits) (hg : s.guard = false) (hwf : s.cache.Wf) :
    ∃ s', exec g observe (.leaf c ans) s = some s' ∧ s'.cache.Wf ∧ s'.guard = false ∧
      (s.ghost = false → s.cache.full = false → s'.ghost = false) ∧
      (s'.ghost = false → s.ghost = false ∧ ∀ b, s'.cache.held b =
        (if (c.obtains ans.result ∧ c.passes g.limit) ∧ b = ans.result then
          [⟨ans.result, c.size.setWidth 32, ans.backtrace.stored⟩] else []) ++
          if c.released ans.result = some b ∧ b ≠ 0 then (s.cache.held b).tail
          else s.cache.held b) := by
  have hacc := Call.accesses_eq (r := ans.result) hc ans.backtrace
  rw [exec_node (Call.ne_exit hc), hg]
  simp only [execAll, Option.bind_some, Option.map_some]
  by_cases ht : c.tracked g false
  · rw [Call.accesses, if_pos ht] at hacc
    rw [if_pos ht, hacc]
    obtain ⟨s', e, hwf', h⟩ := effects_spec (c := c) (r := ans.result)
      (p := c.obtains ans.result ∧ c.passes g.limit)
      (s := Seq.note observe (.returned c ans.result)
        (Seq.note observe (.hold c ans.result) { s with guard := true })) hwf hfit
    exact ⟨Seq.note observe .letGo { s' with guard := false }, by rw [e]; rfl, hwf', rfl, h⟩
  · rw [Call.accesses, if_neg ht] at hacc
    obtain ⟨s', e, -, h⟩ := effects_spec (c := c) (r := ans.result)
      (p := c.obtains ans.result ∧ c.passes g.limit) hwf hfit
    rw [← hacc] at e
    cases e
    rw [if_neg ht]
    exact ⟨s.note observe (.returned c ans.result), rfl, hwf, hg, h⟩

/-- A failed call leaves the table as it is. -/
theorem exec_failed (hc : c.fails ans.result) {s' : Seq Bool}
    (e : exec g observe (.leaf c ans) s = some s') : s'.cache = s.cache := by
  have hacts : c.acts g.limit ans.backtrace ans.result = [] := by
    cases c <;> simp_all [Call.fails, Call.acts, Call.drops, Call.records]
  have hexit : ∀ v, c ≠ .pthreadExit v := by rintro v rfl; simp [Call.fails] at hc
  rw [exec_node hexit, hacts] at e
  split_ifs at e <;> cases e <;> rfl

/-! ## Runs -/

/-- The table agrees with the heap, unless an insertion found the pool full. -/
structure Agrees (g : Configs) (s : Seq Bool) (heap : Heap) : Prop where
  wf : s.cache.Wf
  guard : s.guard = false
  null : heap 0 = none
  small : ∀ a c, heap a = some c → c.size.toNat = c.bytes ∧ c.bytes < 2 ^ 32
  held : s.ghost = false → ∀ a, (s.cache.held a).map Record.size = heap.expected g.limit a

theorem admits_spec {heap : Heap} {r : Word} (hp : g.isPss) (h : heap.admits c r) :
    c.watched g ∧ (c.obtains r → c.bytes < 2 ^ 32) := by
  cases c <;> simp_all [admits, Call.watched, Call.obtains]
  case calloc count bytes =>
    exact fun hr => h.resolve_right fun h' => hr h'.2

/-- The records left at an address are those of what stays live there. -/
theorem held_kept {limit : BitVec 32} {heap : Heap} {r a : Word} {l : List Record}
    (hnull : heap 0 = none) (h : l.map Record.size = heap.expected limit a) :
    (if c.released r = some a ∧ a ≠ 0 then l.tail else l).map Record.size =
      Heap.expected limit (kept heap c r) a := by
  unfold expected kept at *
  by_cases hr : c.released r = some a
  · by_cases h0 : a = 0
    · subst h0
      rw [hnull] at h
      rw [if_neg (by simp), h, if_pos hr]
    · rw [if_pos ⟨hr, h0⟩, if_pos hr, List.map_tail, h]
      rcases heap a with _ | b
      · rfl
      · dsimp only; split <;> rfl
  · rw [if_neg fun h => hr h.1, h, if_neg hr]

/-- **One call**: the table agrees with the heap after it, too. -/
theorem Agrees.step {heap heap' : Heap} (A : Agrees g s heap) (hp : g.isPss) (hfit : ans.Fits)
    (ok : heap.step (c, ans) = some heap') :
    ∃ s', exec g observe (.leaf c ans) s = some s' ∧ Agrees g s' heap' := by
  unfold Heap.step at ok
  split_ifs at ok with had
  obtain ⟨hw, hsmall⟩ := admits_spec hp had
  obtain ⟨hheap, hfresh⟩ := returned_eq ok
  obtain ⟨s', e, hwf, hg, -, hheld⟩ := exec_call hw hfit A.guard A.wf
  refine ⟨s', e, hwf, hg, ?_, fun a b hb => ?_, fun hfull a => ?_⟩
  · exact returned_null ok A.null
  · rcases returned_back ok hb with ⟨h, rfl⟩ | ⟨hold, -⟩
    · exact ⟨Call.size_toNat (hsmall h.1) h.1, hsmall h.1⟩
    · exact A.small a b hold
  · obtain ⟨hfull', hheld⟩ := hheld hfull
    rw [hheld a, List.map_append, held_kept A.null (A.held hfull' a)]
    by_cases h : c.obtains ans.result ∧ a = ans.result
    · have hk : kept heap c ans.result a = none := by rw [h.2]; exact (hfresh h.1).2
      simp only [expected, hheap, if_pos h, hk, List.append_nil]
      have hpw := Call.passes_iff g.limit (hsmall h.1) h.1
      by_cases hw : c.wanted g.limit
      · rw [if_pos ⟨⟨h.1, hpw.2 hw⟩, h.2⟩, if_pos hw]; rfl
      · rw [if_neg fun h => hw (hpw.1 h.1.2), if_neg hw]; rfl
    · simp only [expected, hheap, if_neg h]
      rw [if_neg fun h' => h ⟨h'.1.1, h'.2⟩]; rfl

theorem Agrees.run (hp : g.isPss) {calls : List (Call × Answers)}
    (hfit : ∀ x ∈ calls, x.2.Fits) {s : Seq Bool} {heap heap' : Heap} (A : Agrees g s heap)
    (ok : Lts.run Heap.step heap calls = some heap') :
    ∃ s', execAll g observe (calls.map fun x => .leaf x.1 x.2) s = some s' ∧
      Agrees g s' heap' := by
  induction calls generalizing s heap with
  | nil =>
    cases ok
    exact ⟨s, by rw [List.map_nil, execAll], A⟩
  | cons x calls ih =>
    obtain ⟨heap₁, ok₁, ok⟩ := Lts.run_cons_some.1 ok
    rw [List.forall_mem_cons] at hfit
    obtain ⟨s₁, e₁, A₁⟩ := A.step hp hfit.1 ok₁
    obtain ⟨s', e, A'⟩ := ih hfit.2 A₁ ok
    exact ⟨s', by rw [List.map_cons, execAll, e₁]; exact e, A'⟩

/-- **The table records the heap.**  Every sequence of heap calls that an
    allocator can answer runs to its end, if the backtraces fit their arrays; if
    no insertion found the pool full, the addresses recorded are those of the live
    blocks from `limit` bytes on, once each and with their size.  A failed call
    leaves the table as it is. -/
theorem heap_exact (hp : g.isPss) {c : MemoryCache}
    (hc : c.allocCache.mCount = allocCacheSize) {calls : List (Call × Answers)}
    (hfit : ∀ x ∈ calls, x.2.Fits) {heap : Heap}
    (ok : Lts.run Heap.step (fun _ => none) calls = some heap) :
    ∃ s, execAll g observe (calls.map fun x => .leaf x.1 x.2) ⟨c.reset, false, false⟩ = some s ∧
      (s.ghost = false →
        (∀ a b, heap a = some b → b.wanted g.limit →
          ∃ r, s.cache.held a = [r] ∧ r.size.toNat = b.bytes) ∧
        ∀ h, ∀ r ∈ s.cache.bucket h, ∃ b, heap r.addr = some b ∧ b.wanted g.limit) ∧
      ∀ (x : Call × Answers) (s' : Seq Bool), x.1.fails x.2.result →
        exec g observe (.leaf x.1 x.2) s = some s' → s'.cache = s.cache := by
  have A₀ : Agrees g ⟨c.reset, false, false⟩ (fun _ => none) :=
    ⟨MemoryCache.Wf.reset hc, rfl, rfl, nofun,
      fun _ a => by rw [MemoryCache.Wf.held_reset hc]; rfl⟩
  obtain ⟨s, e, A⟩ := A₀.run hp hfit ok
  refine ⟨s, e, fun hg => ⟨fun a b hb hw => ?_, fun h r hr => ?_⟩, fun x s' hx => exec_failed hx⟩
  · have hheld := A.held hg a
    simp only [expected, hb, if_pos hw] at hheld
    obtain ⟨r, hr, hsize⟩ := List.map_eq_singleton_iff.1 hheld
    obtain ⟨hs, hlt⟩ := A.small a b hb
    refine ⟨r, hr, ?_⟩
    rw [hsize, BitVec.toNat_setWidth, hs, Nat.mod_eq_of_lt hlt]
  · have hmem : r ∈ s.cache.held r.addr := by
      rw [MemoryCache.held, A.wf.hash_of_mem_bucket hr]; simpa using hr
    have hheld := A.held hg r.addr
    by_contra hno
    push Not at hno
    have hnil : heap.expected g.limit r.addr = [] := by
      unfold expected
      rcases hb : heap r.addr with _ | b
      · rfl
      · exact if_neg (hno b hb)
    rw [hnil, List.map_eq_nil_iff] at hheld
    simp [hheld] at hmem

/-- A block that grows across the limit. -/
def growing : List (Call × Answers) :=
  [(.malloc 100, .of 0x1000), (.realloc 0x1000 2000, .of 0x2000)]

theorem heap_exact_growing : ∃ s, execAll Configs.both observe (growing.map fun x => .leaf x.1 x.2)
    ⟨MemoryCache.blank.reset, false, false⟩ = some s ∧
      ∃ r, s.cache.held 0x2000 = [r] ∧ r.size.toNat = 2000 := by
  have hheap : (Lts.run Heap.step (fun _ => none) growing).map (· 0x2000) =
      some (some (.realloc 0x1000 2000)) := by decide
  obtain ⟨heap, ok, hheap⟩ := Option.map_eq_some_iff.1 hheap
  have hfit : ∀ x ∈ growing, x.2.Fits := by
    rintro x hx
    rcases List.mem_pair.1 hx with rfl | rfl <;> exact Answers.fits_of _
  obtain ⟨s, e, h, -⟩ := heap_exact (g := .both) rfl (c := .blank) rfl hfit ok
  have hg : (execAll Configs.both observe (growing.map fun x => .leaf x.1 x.2)
      ⟨MemoryCache.blank.reset, false, false⟩).map Seq.ghost = some false := by decide +kernel
  rw [e, Option.map_some, Option.some.injEq] at hg
  exact ⟨s, e, (h hg).1 0x2000 _ hheap (by decide)⟩

end Heap

end Raphael
