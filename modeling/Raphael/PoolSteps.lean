/-
  AllocPool, one atomic step at a time.

  `apply` and `recycle` are split at their loads, stores and compare-exchanges,
  and any number of threads interleave these steps; `compare_exchange_weak` may
  fail without a reason.  A thread recycles only nodes it owns, may write a node
  it owns, and may pass one on (as the table does, which hands a node inserted
  by one thread to another that removes it).

  * `apply_alone`: an uninterrupted `apply` is the sequential one.
  * `Places`: every issued node is free or held by exactly one thread, with one
    lemma for each change.
  * `places_run`: that holds in every run whose pops exchange the head for its
    current successor; `places_lost` is the run of a recycled head.
-/
import Raphael.CacheInv
import Raphael.Lib.Lts

namespace Raphael

open Linked

namespace AllocPool

/-- Where a thread is in `apply` or `recycle`. -/
inductive Pc
  | idle
  /-- `apply`: load `mStack` -/
  | load
  /-- `apply`: read `p->next` -/
  | readNext (p : Ptr)
  /-- `apply`: exchange `p` for `next` in `mStack` -/
  | popCas (p : Ptr) (next : Option Ptr)
  /-- `apply`: load `mIndex` -/
  | loadIndex
  /-- `apply`: exchange `ii` for `ii + 1` in `mIndex` -/
  | indexCas (ii : BitVec 32)
  /-- `recycle`: load `mStack` -/
  | pushLoad (p : Ptr)
  /-- `recycle`: write `v` to `p->next` -/
  | pushWrite (p : Ptr) (v : Option Ptr)
  /-- `recycle`: exchange `p->next` for `p` in `mStack` -/
  | pushCas (p : Ptr)

/-- The node that a `recycle` in progress has. -/
def Pc.node : Pc → Option Ptr
  | pushLoad p | pushWrite p _ | pushCas p => some p
  | _ => none

structure Shared where
  pool : AllocPool
  /-- the nodes a thread has got and not given back -/
  owned : ℕ → List Ptr
  pc : ℕ → Pc

inductive Step
  /-- thread `t` calls `apply` -/
  | callApply (t : ℕ)
  /-- thread `t` calls `recycle(p)` -/
  | callRecycle (t : ℕ) (p : Ptr)
  /-- thread `t` writes a node it owns -/
  | write (t : ℕ) (p : Ptr) (node : AllocNode)
  /-- thread `t` passes a node it owns to thread `u` -/
  | pass (t u : ℕ) (p : Ptr)
  /-- thread `t` goes on; a compare-exchange may fail without a reason -/
  | next (t : ℕ) (spurious : Bool)

/-- Rewrite `p->next`. -/
def setNext (pool : AllocPool) (p : Ptr) (v : Option Ptr) : AllocPool :=
  { pool with mCache := Function.update pool.mCache p { pool.mCache p with next := v } }

namespace Shared

def goto (s : Shared) (t : ℕ) (pc : Pc) : Shared := { s with pc := Function.update s.pc t pc }

/-- `apply` returns the node `p` to thread `t`. -/
def obtain (s : Shared) (t : ℕ) (p : Ptr) : Shared :=
  { s.goto t .idle with owned := Function.update s.owned t (p :: s.owned t) }

/-- The loop test of `apply` on the stack head it has seen. -/
def seen (s : Shared) (t : ℕ) : Option Ptr → Shared
  | some p => s.goto t (.readNext p)
  | none => s.goto t .loadIndex

/-- The loop test of `apply` on the index it has seen. -/
def seenIndex (s : Shared) (t : ℕ) (ii : BitVec 32) : Shared :=
  if ii.toNat < s.pool.mCount then s.goto t (.indexCas ii) else s.goto t .idle

def next (s : Shared) (t : ℕ) (spurious : Bool) : Option Shared :=
  match s.pc t with
  | .idle => none
  | .load => some (s.seen t s.pool.mStack)
  | .readNext p => some (s.goto t (.popCas p (s.pool.next p)))
  | .popCas p n =>
    if s.pool.mStack = some p ∧ ¬ spurious then
      some ({ s with pool := { s.pool with mStack := n } }.obtain t p)
    else some (s.seen t s.pool.mStack)
  | .loadIndex => some (s.seenIndex t s.pool.mIndex)
  | .indexCas ii =>
    if s.pool.mIndex = ii ∧ ¬ spurious then
      some ({ s with pool := { s.pool with mIndex := ii + 1 } }.obtain t ii.toNat)
    else some (s.seenIndex t s.pool.mIndex)
  | .pushLoad p => some (s.goto t (.pushWrite p s.pool.mStack))
  | .pushWrite p v => some ({ s with pool := s.pool.setNext p v }.goto t (.pushCas p))
  | .pushCas p =>
    if s.pool.mStack = s.pool.next p ∧ ¬ spurious then
      some ({ s with pool := { s.pool with mStack := some p } }.goto t .idle)
    else some (s.goto t (.pushWrite p s.pool.mStack))

def step (s : Shared) : Step → Option Shared
  | .callApply t => match s.pc t with
    | .idle => some (s.goto t .load)
    | _ => none
  | .callRecycle t p => match s.pc t with
    | .idle =>
      if p ∈ s.owned t then
        some { s.goto t (.pushLoad p) with
          owned := Function.update s.owned t ((s.owned t).erase p) }
      else none
    | _ => none
  | .write t p node =>
    if p ∈ s.owned t then
      some { s with pool := { s.pool with mCache := Function.update s.pool.mCache p node } }
    else none
  | .pass t u p =>
    if p ∈ s.owned t then
      let owned := Function.update s.owned t ((s.owned t).erase p)
      some { s with owned := Function.update owned u (p :: owned u) }
    else none
  | .next t spurious => s.next t spurious

/-- The pool after `reset`, nobody has a node. -/
def init (pool : AllocPool) : Shared := ⟨pool.reset, fun _ => [], fun _ => .idle⟩

/-- The nodes of a thread, with the one it is recycling. -/
def holds (s : Shared) (t : ℕ) : List Ptr := (s.pc t).node.toList ++ s.owned t

/-- **An uninterrupted `apply` is the sequential one.** -/
theorem apply_alone (s : Shared) (t : ℕ) (ht : s.pc t = .idle) :
    ∃ n, Lts.run step s (.callApply t :: List.replicate n (.next t false)) =
      some { s with
        pool := s.pool.apply.1
        owned := Function.update s.owned t (s.pool.apply.2.toList ++ s.owned t) } := by
  rcases hs : s.pool.mStack with _ | p
  · by_cases hi : s.pool.mIndex.toNat < s.pool.mCount
    · refine ⟨3, ?_⟩
      simp [Lts.run_cons, List.replicate, step, next, seen, seenIndex, goto, obtain, apply, ht, hs,
        hi, Function.update_idem]
    · refine ⟨2, ?_⟩
      simp [Lts.run_cons, List.replicate, step, next, seen, seenIndex, goto, apply, ht, hs, hi,
        Function.update_idem]
  · refine ⟨3, ?_⟩
    simp [Lts.run_cons, List.replicate, step, next, seen, goto, obtain, apply, ht, hs,
      Function.update_idem]

/-- **An uninterrupted `recycle` is the sequential one.** -/
theorem recycle_alone (s : Shared) (t : ℕ) (p : Ptr) (ht : s.pc t = .idle) (hp : p ∈ s.owned t) :
    Lts.run step s (.callRecycle t p :: List.replicate 3 (.next t false)) =
      some { s with
        pool := s.pool.recycle p
        owned := Function.update s.owned t ((s.owned t).erase p) } := by
  simp [Lts.run_cons, List.replicate, step, next, goto, recycle, setNext, AllocPool.next, ht, hp,
    Function.update_idem]

end Shared

/-! ## Places -/

/-- The free stack `free`, and the nodes `holds` of the threads: every issued
    node is on the stack or with exactly one thread. -/
structure Places (pool : AllocPool) (holds : ℕ → List Ptr) (free : List Ptr) : Prop where
  stack : Path pool.next pool.mStack free
  index : pool.mIndex.toNat ≤ pool.mCount
  issued : ∀ p, p < pool.mIndex.toNat ↔ p ∈ free ∨ ∃ t, p ∈ holds t
  apart : ∀ t, ∀ p ∈ holds t, p ∉ free
  nodup : ∀ t, (holds t).Nodup
  owner : ∀ t u p, p ∈ holds t → p ∈ holds u → u = t

namespace Places
variable {pool : AllocPool} {holds : ℕ → List Ptr} {free : List Ptr} {t u : ℕ} {p : Ptr}

/-- The threads' nodes after `t` got `p`. -/
theorem mem_got {q : Ptr} :
    q ∈ Function.update holds t (p :: holds t) u ↔ (u = t ∧ q = p) ∨ q ∈ holds u := by
  by_cases h : u = t
  · subst h; simp
  · simp [h]

/-- The threads' nodes after `t` gave `p` away. -/
theorem mem_gave (P : Places pool holds free) {l : List Ptr} (hl : (holds t).Perm (p :: l))
    {q : Ptr} :
    q ∈ Function.update holds t l u ↔ q ∈ holds u ∧ ¬ (u = t ∧ q = p) := by
  by_cases h : u = t
  · subst h
    have hn := (List.nodup_cons.1 (hl.nodup_iff.1 (P.nodup u))).1
    simp only [Function.update_self, hl.mem_iff, List.mem_cons, true_and]
    constructor
    · intro hq; exact ⟨Or.inr hq, by rintro rfl; exact hn hq⟩
    · rintro ⟨rfl | hq, hne⟩
      exacts [absurd rfl hne, hq]
  · simp [h]

theorem perm (P : Places pool holds free) {holds' : ℕ → List Ptr}
    (h : ∀ t, (holds' t).Perm (holds t)) : Places pool holds' free where
  stack := P.stack
  index := P.index
  issued p := (P.issued p).trans (by simp only [(h _).mem_iff])
  apart t p hp := P.apart t p ((h t).mem_iff.1 hp)
  nodup t := (h t).nodup_iff.2 (P.nodup t)
  owner t u p hp hp' := P.owner t u p ((h t).mem_iff.1 hp) ((h u).mem_iff.1 hp')

theorem reset (pool : AllocPool) : Places pool.reset (fun _ => []) [] where
  stack := rfl
  index := Nat.zero_le _
  issued := by simp [AllocPool.reset]
  apart := by simp
  nodup := by simp
  owner := by simp

/-- A thread writes a node it holds. -/
theorem write (P : Places pool holds free) (hp : p ∈ holds t) (node : AllocNode) :
    Places { pool with mCache := Function.update pool.mCache p node } holds free :=
  { P with
    stack := by
      have h := P.stack.update (P.apart t p hp) node.next
      rwa [show pool.next = fun q => (pool.mCache q).next from rfl, ← Layout.next_update] at h }

/-- A node nobody holds goes from the pool to a thread. -/
theorem take (P : Places pool holds free) {pool' : AllocPool} {free' : List Ptr}
    (hfree : ∀ u, p ∉ holds u) (hp : p ∉ free')
    (stack : Path pool'.next pool'.mStack free') (index : pool'.mIndex.toNat ≤ pool'.mCount)
    (hsub : ∀ q ∈ free', q ∈ free)
    (issued : ∀ q, q < pool'.mIndex.toNat ↔ q ∈ free' ∨ q = p ∨ ∃ u, q ∈ holds u) :
    Places pool' (Function.update holds t (p :: holds t)) free' where
  stack := stack
  index := index
  issued q := by
    rw [issued]
    simp only [mem_got]
    constructor
    · rintro (h | rfl | ⟨u, h⟩)
      exacts [Or.inl h, Or.inr ⟨t, Or.inl ⟨rfl, rfl⟩⟩, Or.inr ⟨u, Or.inr h⟩]
    · rintro (h | ⟨u, ⟨-, rfl⟩ | h⟩)
      exacts [Or.inl h, Or.inr (Or.inl rfl), Or.inr (Or.inr ⟨u, h⟩)]
  apart u q hq h := by
    rcases mem_got.1 hq with ⟨-, rfl⟩ | hq
    exacts [hp h, P.apart u q hq (hsub q h)]
  nodup u := by
    by_cases h : u = t
    · subst h; rw [Function.update_self]; exact List.nodup_cons.2 ⟨hfree u, P.nodup u⟩
    · rw [Function.update_of_ne h]; exact P.nodup u
  owner u v q hq hq' := by
    rcases mem_got.1 hq with ⟨hu, he⟩ | hq <;> rcases mem_got.1 hq' with ⟨hv, he'⟩ | hq'
    · exact hv.trans hu.symm
    · exact absurd (he ▸ hq') (hfree v)
    · exact absurd (he' ▸ hq) (hfree u)
    · exact P.owner u v q hq hq'

/-- A pop whose new head is the successor of the old one. -/
theorem pop (P : Places pool holds free) (hs : pool.mStack = some p) :
    ∃ free', Places { pool with mStack := pool.next p } (Function.update holds t (p :: holds t))
      free' := by
  have hstack := P.stack
  rw [hs, path_some] at hstack
  obtain ⟨free', rfl, hrest⟩ := hstack
  have hp : p ∉ free' := (List.nodup_cons.1 P.stack.nodup).1
  refine ⟨free', P.take (fun u h => P.apart u p h List.mem_cons_self) hp hrest P.index
    (fun q hq => List.mem_cons_of_mem p hq) fun q => ?_⟩
  rw [P.issued]; simp only [List.mem_cons]; tauto

theorem issue (P : Places pool holds free) (hN : pool.mCount < 2 ^ 32)
    (hi : pool.mIndex.toNat < pool.mCount) :
    Places { pool with mIndex := pool.mIndex + 1 }
      (Function.update holds t (pool.mIndex.toNat :: holds t)) free := by
  have hsucc : (pool.mIndex + 1).toNat = pool.mIndex.toNat + 1 := by
    rw [BitVec.toNat_add]; simp; omega
  have hnew : ¬ pool.mIndex.toNat < pool.mIndex.toNat := lt_irrefl _
  rw [P.issued] at hnew
  push Not at hnew
  refine P.take hnew.2 hnew.1 P.stack (by simp only [hsucc]; omega) (fun _ h => h) fun q => ?_
  simp only [hsucc, Nat.lt_succ_iff_lt_or_eq, P.issued]; tauto

/-- A node goes from a thread to the head of the stack. -/
theorem push (P : Places pool holds free) {l : List Ptr} (hl : (holds t).Perm (p :: l))
    (hs : pool.mStack = pool.next p) :
    Places { pool with mStack := some p } (Function.update holds t l) (p :: free) := by
  have hp : p ∈ holds t := hl.mem_iff.2 List.mem_cons_self
  have hlt := (P.issued p).2 (Or.inr ⟨t, hp⟩)
  refine ⟨path_some.2 ⟨free, rfl, hs ▸ P.stack⟩, P.index, fun q => ?_, fun u q hq h => ?_,
    fun u => ?_, fun u v q hq hq' => ?_⟩
  · rw [P.issued]
    simp only [P.mem_gave hl, List.mem_cons]
    constructor
    · rintro (h | ⟨u, h⟩)
      · exact Or.inl (Or.inr h)
      · by_cases he : u = t ∧ q = p
        exacts [Or.inl (Or.inl he.2), Or.inr ⟨u, h, he⟩]
    · rintro ((rfl | h) | ⟨u, h, -⟩)
      exacts [Or.inr ⟨t, hp⟩, Or.inl h, Or.inr ⟨u, h⟩]
  · obtain ⟨hq, hne⟩ := (P.mem_gave hl).1 hq
    rcases List.mem_cons.1 h with rfl | h
    exacts [hne ⟨P.owner t u q hp hq, rfl⟩, P.apart u q hq h]
  · by_cases h : u = t
    · subst h
      rw [Function.update_self]; exact (List.nodup_cons.1 (hl.nodup_iff.1 (P.nodup u))).2
    · rw [Function.update_of_ne h]; exact P.nodup u
  · exact P.owner u v q ((P.mem_gave hl).1 hq).1 ((P.mem_gave hl).1 hq').1

/-- A node goes from a thread to another. -/
theorem pass (P : Places pool holds free) {l : List Ptr} (hl : (holds t).Perm (p :: l)) :
    Places pool (Function.update (Function.update holds t l) u (p :: Function.update holds t l u))
      free := by
  have hp : p ∈ holds t := hl.mem_iff.2 List.mem_cons_self
  have hmem : ∀ {v q}, q ∈ Function.update (Function.update holds t l) u
      (p :: Function.update holds t l u) v ↔ (v = u ∧ q = p) ∨ q ∈ holds v ∧ ¬ (v = t ∧ q = p) := by
    intro v q
    rw [mem_got, P.mem_gave hl]
  have hnone : ∀ v, p ∉ Function.update holds t l v := fun v h =>
    ((P.mem_gave hl).1 h).2 ⟨P.owner t v p hp ((P.mem_gave hl).1 h).1, rfl⟩
  refine ⟨P.stack, P.index, fun q => ?_, fun v q hq h => ?_, fun v => ?_, fun v w q hq hq' => ?_⟩
  · rw [P.issued]
    simp only [hmem]
    refine or_congr Iff.rfl ⟨fun ⟨v, h⟩ => ?_, fun ⟨v, h⟩ => ?_⟩
    · by_cases he : v = t ∧ q = p
      exacts [⟨u, Or.inl ⟨rfl, he.2⟩⟩, ⟨v, Or.inr ⟨h, he⟩⟩]
    · rcases h with ⟨-, rfl⟩ | ⟨h, -⟩
      exacts [⟨t, hp⟩, ⟨v, h⟩]
  · rcases hmem.1 hq with ⟨-, rfl⟩ | ⟨hq, -⟩
    exacts [P.apart t q hp h, P.apart v q hq h]
  · have hnd : ∀ v, (Function.update holds t l v).Nodup := by
      intro v
      by_cases h : v = t
      · subst h
        rw [Function.update_self]; exact (List.nodup_cons.1 (hl.nodup_iff.1 (P.nodup v))).2
      · rw [Function.update_of_ne h]; exact P.nodup v
    by_cases h : v = u
    · subst h; rw [Function.update_self]; exact List.nodup_cons.2 ⟨hnone v, hnd v⟩
    · rw [Function.update_of_ne h]; exact hnd v
  · rcases hmem.1 hq with ⟨hv, he⟩ | ⟨hq, hne⟩ <;>
      rcases hmem.1 hq' with ⟨hw, he'⟩ | ⟨hq', hne'⟩
    · exact hw.trans hv.symm
    · exact absurd ⟨P.owner t w q (he ▸ hp) hq', he⟩ hne'
    · exact absurd ⟨P.owner t v q (he' ▸ hp) hq, he'⟩ hne
    · exact P.owner v w q hq hq'

end Places

/-! ## Runs -/

namespace Shared
variable {s s' : Shared} {t : ℕ}

/-- Every node of the pool is never issued, on the free stack once, or with
    exactly one thread. -/
def OnePlace (s : Shared) : Prop :=
  ∃ free, Path s.pool.next s.pool.mStack free ∧ ∀ p < s.pool.mCount,
    (s.pool.mIndex.toNat ≤ p ∧ p ∉ free ∧ ∀ t, p ∉ s.holds t) ∨
    (p < s.pool.mIndex.toNat ∧ free.count p = 1 ∧ ∀ t, p ∉ s.holds t) ∨
    (p < s.pool.mIndex.toNat ∧ p ∉ free ∧
      ∃ t, (s.holds t).count p = 1 ∧ ∀ u, u ≠ t → p ∉ s.holds u)

/-- The thread is about to exchange the head for a node that is not, or not any
    more, its successor. -/
def stale (s : Shared) (t : ℕ) : Bool :=
  match s.pc t with
  | .popCas p n => s.pool.mStack = some p ∧ n ≠ s.pool.next p
  | _ => false

/-- A pop that succeeds exchanges the head for its current successor. -/
def Current (s : Shared) : Step → Prop
  | .next t false => s.stale t = false
  | _ => True

instance (s : Shared) : DecidablePred (Current s)
  | .next t false => inferInstanceAs (Decidable (s.stale t = false))
  | .next _ true | .callApply _ | .callRecycle .. | .write .. | .pass .. => isTrue trivial

structure Inv (N : ℕ) (s : Shared) : Prop where
  count : s.pool.mCount = N
  places : ∃ free, Places s.pool s.holds free
  cas : ∀ t ii, s.pc t = .indexCas ii → ii.toNat < N

theorem inv_init {pool : AllocPool} : Inv pool.mCount (init pool) where
  count := rfl
  places := ⟨[], by
    have e : (init pool).holds = fun _ => [] := rfl
    rw [e]; exact Places.reset pool⟩
  cas := by simp [init]

theorem Inv.onePlace {N : ℕ} (I : Inv N s) : s.OnePlace := by
  obtain ⟨free, P⟩ := I.places
  refine ⟨free, P.stack, fun p _ => ?_⟩
  by_cases hi : p < s.pool.mIndex.toNat
  · refine Or.inr ?_
    by_cases hf : p ∈ free
    · exact Or.inl ⟨hi, List.count_eq_one_of_mem P.stack.nodup hf, fun t ht => P.apart t p ht hf⟩
    · obtain ⟨t, ht⟩ := ((P.issued p).1 hi).resolve_left hf
      exact Or.inr ⟨hi, hf, t, List.count_eq_one_of_mem (P.nodup t) ht,
        fun u hu hp => hu (P.owner t u p ht hp)⟩
  · have h := mt (P.issued p).2 hi
    push Not at h
    exact Or.inl ⟨by omega, h.1, h.2⟩

/-- The invariant after a step of thread `t`. -/
theorem Inv.of_step {N : ℕ} (I : Inv N s) {pool : AllocPool} {owned : List Ptr} {pc : Pc}
    {free : List Ptr} (hcount : pool.mCount = s.pool.mCount)
    (P : Places pool (Function.update s.holds t (pc.node.toList ++ owned)) free)
    (hcas : ∀ ii, pc = .indexCas ii → ii.toNat < s.pool.mCount) :
    Inv N ⟨pool, Function.update s.owned t owned, Function.update s.pc t pc⟩ where
  count := hcount.trans I.count
  places := by
    refine ⟨free, ?_⟩
    convert P using 1
    funext u
    by_cases h : u = t
    · subst h; simp [holds]
    · simp [holds, h]
  cas u ii h := by
    by_cases hu : u = t
    · subst hu
      rw [← I.count]; exact hcas ii (by simpa using h)
    · exact I.cas u ii (by simpa [hu] using h)

/-- The invariant after a step of thread `t` that changes only the pool. -/
theorem Inv.of_goto {N : ℕ} (I : Inv N s) {pool : AllocPool} {pc : Pc} {free : List Ptr}
    (hcount : pool.mCount = s.pool.mCount)
    (P : Places pool (Function.update s.holds t (pc.node.toList ++ s.owned t)) free)
    (hcas : ∀ ii, pc = .indexCas ii → ii.toNat < s.pool.mCount) :
    Inv N ⟨pool, s.owned, Function.update s.pc t pc⟩ := by
  have h := I.of_step hcount P hcas
  rwa [Function.update_eq_self] at h

/-- Thread `t` goes on with the node it had. -/
theorem Inv.goto {N : ℕ} (I : Inv N s) {pc : Pc} (hnode : pc.node = (s.pc t).node)
    (hcas : ∀ ii, pc = .indexCas ii → ii.toNat < s.pool.mCount) : Inv N (s.goto t pc) := by
  obtain ⟨free, P⟩ := I.places
  have h : Function.update s.holds t (pc.node.toList ++ s.owned t) = s.holds := by
    rw [hnode]; exact Function.update_eq_self t s.holds
  exact I.of_goto rfl (h.symm ▸ P) hcas

theorem Inv.seen {N : ℕ} (I : Inv N s) (h : (s.pc t).node = none) (p : Option Ptr) :
    Inv N (s.seen t p) := by
  rcases p with _ | p
  · exact I.goto h.symm nofun
  · exact I.goto h.symm nofun

theorem Inv.seenIndex {N : ℕ} (I : Inv N s) (h : (s.pc t).node = none) (ii : BitVec 32) :
    Inv N (s.seenIndex t ii) := by
  unfold Shared.seenIndex
  split_ifs with hi
  · exact I.goto h.symm (by rintro _ ⟨⟩; exact hi)
  · exact I.goto h.symm nofun

theorem Inv.next {N : ℕ} (hN : N < 2 ^ 32) (I : Inv N s) {spurious : Bool}
    (ok : Current s (.next t spurious)) (e : s.next t spurious = some s') : Inv N s' := by
  obtain ⟨free, P⟩ := I.places
  have hholds : s.holds t = (s.pc t).node.toList ++ s.owned t := rfl
  unfold Shared.next at e
  cases hpc : s.pc t with
  | idle => simp [hpc] at e
  | load =>
    rw [hpc] at e; cases e
    exact I.seen (by rw [hpc]; rfl) _
  | readNext p =>
    rw [hpc] at e; cases e
    exact I.goto (by rw [hpc]; rfl) nofun
  | popCas p n =>
    simp only [hpc] at e hholds
    split_ifs at e with h <;> cases e
    · obtain rfl : n = s.pool.next p := by
        simpa [Current, stale, h.2, hpc, h.1] using ok
      obtain ⟨free', P'⟩ := P.pop (t := t) h.1
      rw [hholds] at P'
      exact I.of_step rfl P' nofun
    · exact I.seen (by rw [hpc]; rfl) _
  | loadIndex =>
    rw [hpc] at e; cases e
    exact I.seenIndex (by rw [hpc]; rfl) _
  | indexCas ii =>
    simp only [hpc] at e hholds
    split_ifs at e with h <;> cases e
    · obtain ⟨rfl, -⟩ := h
      have hi := I.cas t _ hpc
      have P' := P.issue (t := t) (I.count ▸ hN) (I.count ▸ hi)
      rw [hholds] at P'
      exact I.of_step rfl P' nofun
    · exact I.seenIndex (by rw [hpc]; rfl) _
  | pushLoad p =>
    rw [hpc] at e; cases e
    exact I.goto (by rw [hpc]; rfl) nofun
  | pushWrite p v =>
    rw [hpc] at e; cases e
    have hp : p ∈ s.holds t := by rw [hholds, hpc]; exact List.mem_cons_self
    have h : Function.update s.holds t ((Pc.pushCas p).node.toList ++ s.owned t) = s.holds := by
      rw [show (Pc.pushCas p).node = (s.pc t).node by rw [hpc]; rfl]
      exact Function.update_eq_self t s.holds
    exact I.of_goto rfl (h.symm ▸ P.write hp _) nofun
  | pushCas p =>
    simp only [hpc] at e hholds
    split_ifs at e with h <;> cases e
    · exact I.of_goto rfl (P.push (hholds ▸ List.Perm.refl _) h.1) nofun
    · exact I.goto (by rw [hpc]; rfl) nofun

theorem step_inv {N : ℕ} (hN : N < 2 ^ 32) (s : Shared) (l : Step) (s' : Shared) (I : Inv N s)
    (ok : Current s l) (e : step s l = some s') : Inv N s' := by
  obtain ⟨free, P⟩ := I.places
  cases l with
  | callApply t =>
    simp only [step] at e
    split at e
    · next hpc =>
      cases e
      exact I.goto (by rw [hpc]; rfl) nofun
    · simp at e
  | callRecycle t p =>
    simp only [step] at e
    split at e
    · next hpc =>
      split_ifs at e with hp
      cases e
      refine I.of_step rfl (P.perm fun u => ?_) nofun
      by_cases hu : u = t
      · subst hu
        simpa [holds, hpc, Pc.node] using (List.perm_cons_erase hp).symm
      · rw [Function.update_of_ne hu]
    · simp at e
  | write t p node =>
    simp only [step] at e
    split_ifs at e with hp
    cases e
    exact ⟨I.count, ⟨free, P.write (t := t) (List.mem_append_right _ hp) node⟩, I.cas⟩
  | pass t u p =>
    simp only [step] at e
    split_ifs at e with hp
    cases e
    have hl : (s.holds t).Perm (p :: ((s.pc t).node.toList ++ (s.owned t).erase p)) :=
      ((List.perm_cons_erase hp).append_left _).trans List.perm_middle
    refine ⟨I.count, ⟨free, (P.pass (u := u) hl).perm fun v => ?_⟩, I.cas⟩
    by_cases hv : v = u
    · subst hv
      by_cases hvt : v = t
      · subst hvt; simp [holds]
      · simp [holds, hvt]
    · by_cases hvt : v = t
      · subst hvt; simp [holds, hv]
      · simp [holds, hv, hvt]
  | next t spurious => exact I.next hN ok e

end Shared

open Shared

/-- **Every node stays in one place**, in every run whose pops exchange the head
    for its current successor. -/
theorem places_run {pool : AllocPool} (hN : pool.mCount < 2 ^ 32) {ls : List Step} {s : Shared}
    (ok : Lts.Along step Current (init pool) ls) (e : Lts.run step (init pool) ls = some s) :
    s.OnePlace :=
  (Lts.run_inv (step_inv hN) inv_init ok e).onePlace

/-- Thread `t` goes on for `n` steps. -/
def goOn (t n : ℕ) : List Step := List.replicate n (.next t false)

/-- Two nodes go to thread 1 and back, the first one on top. -/
def twoFree : List Step :=
  .callApply 1 :: goOn 1 3 ++ .callApply 1 :: goOn 1 3 ++
    .callRecycle 1 1 :: goOn 1 3 ++ .callRecycle 1 0 :: goOn 1 3

/-- The run that breaks it: thread 0 has read the head and its successor; thread
    1 pops both nodes and pushes the first one back; the exchange of thread 0
    succeeds, and its next `apply` gets the node that thread 1 still has. -/
def recycledHead : List Step :=
  twoFree ++ .callApply 0 :: goOn 0 2 ++ .callApply 1 :: goOn 1 3 ++ .callApply 1 :: goOn 1 3 ++
    .callRecycle 1 0 :: goOn 1 3 ++ goOn 0 1 ++ .callApply 0 :: goOn 0 3

theorem places_lost : ¬ ∀ (pool : AllocPool) (ls : List Step) (s : Shared),
    pool.mCount < 2 ^ 32 → Lts.run step (init pool) ls = some s → s.OnePlace := by
  intro h
  have hs : (Lts.run step (init MemoryCache.blank.allocCache) recycledHead).map (fun s =>
      (s.holds 0, s.holds 1, s.pool.mCount)) = some ([1, 0], [1], allocCacheSize) := by
    decide +kernel
  obtain ⟨s, e, hs⟩ := Option.map_eq_some_iff.1 hs
  simp only [Prod.mk.injEq] at hs
  obtain ⟨h0, h1, hc⟩ := hs
  obtain ⟨free, -, hp⟩ := h MemoryCache.blank.allocCache recycledHead s (by decide) e
  rcases hp 1 (by rw [hc]; decide) with ⟨-, -, hn⟩ | ⟨-, -, hn⟩ | ⟨-, -, t, -, hn⟩
  · exact hn 0 (by simp [h0])
  · exact hn 0 (by simp [h0])
  · by_cases ht : t = 0
    · exact hn 1 (by omega) (by simp [h1])
    · exact hn 0 (Ne.symm ht) (by simp [h0])

theorem places_twoFree : ∃ s,
    Lts.run step (init MemoryCache.blank.allocCache) (twoFree ++ .callApply 0 :: goOn 0 3) = some s ∧
      s.OnePlace := by
  obtain ⟨s, e⟩ : ∃ s, Lts.run step (init MemoryCache.blank.allocCache)
      (twoFree ++ .callApply 0 :: goOn 0 3) = some s := Option.isSome_iff_exists.1 (by decide +kernel)
  exact ⟨s, e, places_run (by decide) (by decide +kernel) e⟩

end AllocPool

end Raphael
