/-
  Any number of threads calling the hooked functions, their steps interleaved.

  A thread runs the proxy of its call operation by operation; an original, an
  insertion and a removal are one step each.  The originals behave as an
  allocator and a kernel may: they return only addresses that are not live.
  The program passes only blocks and whole mappings that a returned call gave
  it, each to one call at a time.

  * `Table`: how the records of an address, its owner and the accesses still
    to come fit together; one lemma for each access.
  * `next_cases`: what a step of a thread does.
  * `threads_exact`: the table is exact whenever no call is in progress,
    provided that no record was inserted for an address while another thread
    had still to remove the record of the block it released there.
-/
import Raphael.Client
import Raphael.Store

namespace Raphael

/-- A live block or mapping: the call that obtained it last, with its
    backtrace, and the thread whose call in progress has it. -/
structure Block where
  call : Call
  backtrace : Backtrace
  inCall : Option ℕ

def Block.record (b : Block) (a : Word) : Record :=
  ⟨a, b.call.size.setWidth 32, b.backtrace.stored⟩

/-- A call in progress and what is left of its proxy. -/
structure Running where
  call : Call
  backtrace : Backtrace
  rest : Hook Word

structure Thread where
  guard : Bool
  running : Option Running

/-- The accesses to the table that a thread has still to make after an original
    returned to it. -/
def Thread.acts (limit : BitVec 32) (th : Thread) : List Act :=
  match th.running with
  | none => []
  | some x => pending limit x.backtrace x.rest

structure State where
  cache : MemoryCache
  live : Word → Option Block
  thread : ℕ → Thread

inductive Label
  /-- thread `t` calls `c`, from a place with the backtrace `bt` -/
  | start (t : ℕ) (c : Call) (bt : Backtrace)
  /-- thread `t` goes on; an original returns `r` -/
  | next (t : ℕ) (r : Word)

def Label.tid : Label → ℕ
  | start t _ _ | next t _ => t

namespace State

/-- The program may make this call. -/
def admits (s : State) (c : Call) : Bool :=
  c.bytes < 2 ^ 32 && match c with
    | .free a | .realloc a _ =>
      a = 0 || (s.live a).any fun b => !b.call.isMap && b.inCall.isNone
    | .munmap a n =>
      (s.live a).any fun b => b.call.isMap && b.call.bytes = n.toNat && b.inCall.isNone
    | .pthreadExit _ => false
    | _ => true

/-- Thread `t` goes on with `p`. -/
def resume (s : State) (t : ℕ) (x : Running) (guard : Bool) (p : Hook Word) : State :=
  { s with thread := Function.update s.thread t ⟨guard, some { x with rest := p }⟩ }

/-- The next operation of thread `t`. -/
def next (g : Configs) (s : State) (t : ℕ) (r : Word) (x : Running) : Option State :=
  let guard := (s.thread t).guard
  match x.rest with
  | .ret _ => some { s with
      live := fun a => (s.live a).map fun b =>
        if b.inCall = some t then { b with inCall := none } else b
      thread := Function.update s.thread t ⟨guard, none⟩ }
  | .op .test k => some (s.resume t x guard (k (g, guard)))
  | .op (.setGuard v) k => some (s.resume t x v (k ()))
  | .op .readLimit k => some (s.resume t x guard (k g.limit))
  | .op .unwind k => some (s.resume t x guard (k x.backtrace))
  | .op (.origin c) k =>
    (returned s.live c r ⟨c, x.backtrace, some t⟩).map fun live =>
      { s.resume t x guard (k r) with live := live }
  | .op (.insert a n bt) k =>
    if s.cache.full then none
    else (s.cache.insert a n bt).map fun c => { s.resume t x guard (k ()) with cache := c }
  | .op (.remove a) k =>
    (s.cache.remove a).map fun c => { s.resume t x guard (k ()) with cache := c }
  | .op .stackBase _ => none

/-- One step, with the configuration `g`.  No step inserts into a full pool. -/
def step (g : Configs) (s : State) : Label → Option State
  | .start t c bt =>
    if (s.thread t).running.isNone && s.admits c then
      some { s with
        live := fun a =>
          if c.passed = some a then (s.live a).map ({ · with inCall := some t }) else s.live a
        thread := Function.update s.thread t ⟨(s.thread t).guard, some ⟨c, bt, proxy c⟩⟩ }
    else none
  | .next t r => (s.thread t).running.bind (s.next g t r)

/-- Nothing is live, no call is in progress, the table is empty. -/
def init (c : MemoryCache) : State := ⟨c.reset, fun _ => none, fun _ => ⟨false, none⟩⟩

/-- No call is in progress. -/
def Quiet (s : State) : Prop := ∀ t, (s.thread t).running = none

/-- The table holds exactly one record for each live block from `limit` bytes on
    and for each live mapping, with the size and the backtrace of the call that
    obtained it, and no other record. -/
structure Exact (g : Configs) (s : State) : Prop where
  recorded : ∀ a b, s.live a = some b → b.call.wanted g.limit →
    ∃ r, s.cache.held a = [r] ∧ r.size.toNat = b.call.bytes ∧ r.frames = b.backtrace.stored
  others : ∀ h, ∀ r ∈ s.cache.bucket h, ∃ b, s.live r.addr = some b ∧ b.call.wanted g.limit

/-- The step does not insert a record for an address whose record another
    thread has still to remove. -/
def Clear (g : Configs) (s : State) : Label → Prop
  | .start .. => True
  | .next t _ => ∀ x a n bt k, (s.thread t).running = some x →
      x.rest = .op (HookOp.insert a n bt) k →
      ∀ u, u ≠ t → Act.remove a ∉ (s.thread u).acts g.limit

end State

/-! ## Records, owners and accesses to come -/

/-- Some thread will insert a record for `a`. -/
def Inserting (acts : ℕ → List Act) (a : Word) : Prop := ∃ t n bt, Act.insert a n bt ∈ acts t

/-- Some thread will remove the record of `a`. -/
def Removing (acts : ℕ → List Act) (a : Word) : Prop := ∃ t, Act.remove a ∈ acts t

/-- The records `held`, the blocks `live` and the accesses `acts` still to come
    fit together: a block in its place has its record and nobody is about to
    remove it; elsewhere what is left is about to be removed. -/
structure Table (limit : BitVec 32) (held : Word → List Record) (live : Word → Option Block)
    (acts : ℕ → List Act) : Prop where
  owner : ∀ t a n bt, Act.insert a n bt ∈ acts t → ∃ b, live a = some b ∧ b.inCall = some t ∧
    b.call.wanted limit ∧ (⟨a, n.setWidth 32, bt.stored⟩ : Record) = b.record a
  last : ∀ t l a n bt l', acts t = l ++ Act.insert a n bt :: l' → l' = []
  settled : ∀ a b, live a = some b → b.call.wanted limit → ¬ Inserting acts a →
    held a = [b.record a] ∧ ¬ Removing acts a
  unsettled : ∀ a, (∀ b, live a = some b → b.call.wanted limit → Inserting acts a) →
    held a = [] ∨ (∃ r, held a = [r]) ∧ Removing acts a

section visible
variable {limit : BitVec 32} {bt : Backtrace} {c : Call} {r : Word}

theorem mem_visible_remove {a : Word} :
    Act.remove a ∈ c.visible limit bt r ↔ c.released r = some a ∧ a ≠ 0 := by
  have hno : Act.remove a ∉
      if c.obtains r ∧ c.wanted limit then [Act.insert r c.size bt] else [] := by
    split <;> simp
  simp [Call.visible, Call.effects, hno, Option.filter_eq_some_iff]

theorem mem_visible_insert {a n : Word} {bt' : Backtrace} :
    Act.insert a n bt' ∈ c.visible limit bt r ↔
      (c.obtains r ∧ c.wanted limit) ∧ a = r ∧ n = c.size ∧ bt' = bt := by
  unfold Call.visible Call.effects
  split <;> simp_all

theorem visible_last {l l' : List Act} {a n : Word} {bt' : Backtrace}
    (h : c.visible limit bt r = l ++ Act.insert a n bt' :: l') : l' = [] := by
  unfold Call.visible Call.effects at h
  rcases hd : ((c.released r).filter (· ≠ 0)) with _ | a' <;> simp only [hd] at h <;> split at h <;>
    rcases l with _ | ⟨x, _ | ⟨y, l⟩⟩ <;> simp_all

end visible

/-- A fact about the accesses of some thread, after one without any has got
    some. -/
theorem exists_update {acts : ℕ → List Act} {t : ℕ} (ht : acts t = []) (l : List Act)
    {P : List Act → Prop} (hP : ¬ P []) :
    (∃ u, P (Function.update acts t l u)) ↔ P l ∨ ∃ u, P (acts u) := by
  constructor
  · rintro ⟨u, hu⟩
    by_cases h : u = t
    · subst h; exact Or.inl (by simpa using hu)
    · exact Or.inr ⟨u, by simpa [h] using hu⟩
  · rintro (h | ⟨u, hu⟩)
    · exact ⟨t, by simpa using h⟩
    · refine ⟨u, ?_⟩
      rw [Function.update_of_ne]
      · exact hu
      · rintro rfl; exact hP (ht ▸ hu)

section visible
variable {limit : BitVec 32} {acts : ℕ → List Act} {t : ℕ} {c : Call} {r a : Word} {bt : Backtrace}

/-- Who inserts when thread `t` gets the accesses of `c`. -/
theorem inserting_update (ht : acts t = []) :
    Inserting (Function.update acts t (c.visible limit bt r)) a ↔
      (c.obtains r ∧ c.wanted limit ∧ a = r) ∨ Inserting acts a := by
  refine (exists_update ht _ (P := fun l => ∃ n bt, Act.insert a n bt ∈ l) (by simp)).trans
    (or_congr ?_ Iff.rfl)
  simp [mem_visible_insert, and_assoc]

theorem removing_update (ht : acts t = []) :
    Removing (Function.update acts t (c.visible limit bt r)) a ↔
      (c.released r = some a ∧ a ≠ 0) ∨ Removing acts a := by
  exact (exists_update ht _ (P := fun l => Act.remove a ∈ l) List.not_mem_nil).trans
    (or_congr mem_visible_remove Iff.rfl)

end visible

namespace Table
variable {limit : BitVec 32} {held : Word → List Record} {live live' : Word → Option Block}
  {acts : ℕ → List Act}

theorem le_one (T : Table limit held live acts) (a : Word) :
    held a = [] ∨ ∃ r, held a = [r] := by
  by_cases h : ∀ b, live a = some b → b.call.wanted limit → Inserting acts a
  · exact (T.unsettled a h).imp_right And.left
  · push Not at h
    obtain ⟨b, hb, hw, hn⟩ := h
    exact Or.inr ⟨_, (T.settled a b hb hw hn).1⟩

/-- Only the thread that has the block inserts its record. -/
theorem inserter_unique (T : Table limit held live acts) {t u : ℕ} {a n n' : Word}
    {bt bt' : Backtrace} (h : Act.insert a n bt ∈ acts t) (h' : Act.insert a n' bt' ∈ acts u) :
    u = t := by
  obtain ⟨b, hb, ht, -⟩ := T.owner t a n bt h
  obtain ⟨b', hb', hu, -⟩ := T.owner u a n' bt' h'
  obtain rfl := Option.some.inj (hb.symm.trans hb')
  exact Option.some.inj (hu.symm.trans ht)

/-- Who has which block matters only for the threads with accesses to come. -/
theorem mark (T : Table limit held live acts)
    (hsame : ∀ a, (live' a).map (fun b => (b.call, b.backtrace)) =
      (live a).map fun b => (b.call, b.backtrace))
    (hkeep : ∀ a b t, live a = some b → b.inCall = some t → acts t ≠ [] → live' a = some b) :
    Table limit held live' acts := by
  have hback : ∀ {l l' : Word → Option Block} {a b}, (l' a).map (fun b => (b.call, b.backtrace)) =
      (l a).map (fun b => (b.call, b.backtrace)) → l' a = some b →
      ∃ b', l a = some b' ∧ b'.call = b.call ∧ b'.backtrace = b.backtrace := by
    intro l l' a b e hb
    rw [hb, Option.map_some, eq_comm, Option.map_eq_some_iff] at e
    obtain ⟨b', hb', e⟩ := e
    exact ⟨b', hb', congrArg Prod.fst e, congrArg Prod.snd e⟩
  refine ⟨fun t a n bt h => ?_, T.last, fun a b hb hw hn => ?_, fun a h => ?_⟩
  · obtain ⟨b, hb, ht, hw, hr⟩ := T.owner t a n bt h
    exact ⟨b, hkeep a b t hb ht (List.ne_nil_of_mem h), ht, hw, hr⟩
  · obtain ⟨b', hb', hc, hbt⟩ := hback (hsame a) hb
    obtain ⟨h₁, h₂⟩ := T.settled a b' hb' (hc ▸ hw) hn
    exact ⟨by rw [h₁, Block.record, Block.record, hc, hbt], h₂⟩
  · refine T.unsettled a fun b hb hw => ?_
    obtain ⟨b', hb', hc, -⟩ := hback (hsame a).symm hb
    exact h b' hb' (hc ▸ hw)

/-- An original returns to a thread without accesses to come. -/
theorem origin (T : Table limit held live acts) {t : ℕ} (ht : acts t = []) (hnull : live 0 = none)
    {c : Call} {bt : Backtrace} {r : Word}
    (hpassed : ∀ a, c.passed = some a → a ≠ 0 → ∃ b, live a = some b ∧ b.inCall = some t)
    (hret : returned live c r ⟨c, bt, some t⟩ = some live') :
    Table limit held live' (Function.update acts t (c.visible limit bt r)) := by
  have hmine : ∀ a, c.released r = some a →
      live a = none ∨ ∃ b, live a = some b ∧ b.inCall = some t := by
    intro a ha
    by_cases h0 : a = 0
    · exact Or.inl (h0 ▸ hnull)
    · exact Or.inr (hpassed a (Call.released_passed ha) h0)
  refine ⟨fun u a n bt' h => ?_, fun u l a n bt' l' h => ?_, fun a b hb hw hn => ?_, fun a h => ?_⟩
  · by_cases hu : u = t
    · subst hu
      rw [Function.update_self, mem_visible_insert] at h
      obtain ⟨⟨hr, hw⟩, rfl, rfl, rfl⟩ := h
      exact ⟨_, by rw [(returned_eq hret).1, if_pos ⟨hr, rfl⟩], rfl, hw, rfl⟩
    · rw [Function.update_of_ne hu] at h
      obtain ⟨b, hb, ht', hw, e⟩ := T.owner u a n bt' h
      have hne : c.released r ≠ some a := by
        intro hr
        rcases hmine a hr with h' | ⟨b', hb', h'⟩
        · simp [hb] at h'
        · obtain rfl := Option.some.inj (hb.symm.trans hb')
          exact hu (Option.some.inj (ht'.symm.trans h'))
      exact ⟨b, (returned_keep hret hb hne).1, ht', hw, e⟩
  · by_cases hu : u = t
    · subst hu
      rw [Function.update_self] at h
      exact visible_last h
    · rw [Function.update_of_ne hu] at h
      exact T.last u l a n bt' l' h
  · rw [inserting_update ht] at hn
    rw [removing_update ht]
    rcases returned_back hret hb with ⟨h, rfl⟩ | ⟨hold, hr⟩
    · exact absurd (Or.inl ⟨h.1, hw, h.2⟩) hn
    · obtain ⟨h, h'⟩ := T.settled a b hold hw fun h => hn (Or.inr h)
      refine ⟨h, ?_⟩
      rintro (⟨hr', -⟩ | hr')
      exacts [hr hr', h' hr']
  · rw [removing_update ht]
    by_cases hr : c.released r = some a ∧ a ≠ 0
    · exact (T.le_one a).imp_right fun h => ⟨h, Or.inl hr⟩
    · refine (T.unsettled a fun b hb hw => ?_).imp_right fun h => ⟨h.1, Or.inr h.2⟩
      have hne : c.released r ≠ some a := by
        intro e
        exact hr ⟨e, by rintro rfl; rw [hnull] at hb; simp at hb⟩
      obtain ⟨hnew, hother⟩ := returned_keep hret hb hne
      rcases (inserting_update ht).1 (h b hnew hw) with h' | h'
      exacts [absurd ⟨h'.1, h'.2.2⟩ hother, h']

section first
variable {t u : ℕ} {x y : Act} {l : List Act}

/-! A thread makes the first of its accesses. -/

theorem mem_of_update (ht : acts t = x :: l) (hy : y ∈ Function.update acts t l u) :
    y ∈ acts u := by
  by_cases hu : u = t
  · subst hu
    rw [Function.update_self] at hy
    rw [ht]
    exact List.mem_cons_of_mem _ hy
  · rwa [Function.update_of_ne hu] at hy

theorem mem_update (ht : acts t = x :: l) (hy : y ∈ acts u) (hne : y ≠ x) :
    y ∈ Function.update acts t l u := by
  by_cases hu : u = t
  · subst hu
    rw [ht, List.mem_cons] at hy
    rw [Function.update_self]
    exact hy.resolve_left hne
  · rwa [Function.update_of_ne hu]

theorem last_update (T : Table limit held live acts) (ht : acts t = x :: l) :
    ∀ u l₁ a n bt l₂, Function.update acts t l u = l₁ ++ Act.insert a n bt :: l₂ → l₂ = [] := by
  intro u l₁ a n bt l₂ h
  by_cases hu : u = t
  · subst hu
    rw [Function.update_self] at h
    exact T.last u (x :: l₁) a n bt l₂ (by rw [ht, h]; rfl)
  · rw [Function.update_of_ne hu] at h
    exact T.last u l₁ a n bt l₂ h

end first

/-- A thread inserts a record that no other thread is about to remove. -/
theorem insert (T : Table limit held live acts) {t : ℕ} {a n : Word} {bt : Backtrace}
    {l : List Act} (ht : acts t = .insert a n bt :: l)
    (hclear : ∀ u, u ≠ t → Act.remove a ∉ acts u) :
    Table limit (fun b => if a = b then ⟨a, n.setWidth 32, bt.stored⟩ :: held b else held b) live
      (Function.update acts t l) := by
  obtain rfl := T.last t [] a n bt l ht
  have hmem : Act.insert a n bt ∈ acts t := by simp [ht]
  have hnone : ¬ Removing acts a := by
    rintro ⟨u, hu⟩
    by_cases h : u = t
    · subst h; simp [ht] at hu
    · exact hclear u h hu
  have hins : ∀ b, b ≠ a → Inserting acts b → Inserting (Function.update acts t []) b := by
    rintro b hb ⟨u, n', bt', hu⟩
    exact ⟨u, n', bt', mem_update ht hu (by simp [hb])⟩
  have hrem : ∀ b, Removing (Function.update acts t []) b → Removing acts b := by
    rintro b ⟨u, hu⟩
    exact ⟨u, mem_of_update ht hu⟩
  refine ⟨fun u b n' bt' h => T.owner u b n' bt' (mem_of_update ht h), T.last_update ht,
    fun b x hb hw hn => ?_, fun b h => ?_⟩
  · by_cases hab : a = b
    · subst hab
      obtain ⟨x', hx', -, -, e⟩ := T.owner t a n bt hmem
      obtain rfl := Option.some.inj (hb.symm.trans hx')
      have hold : held a = [] :=
        (T.unsettled a fun _ _ _ => ⟨t, n, bt, hmem⟩).resolve_right fun h => hnone h.2
      exact ⟨by rw [if_pos rfl, hold, e], fun h => hnone (hrem a h)⟩
    · obtain ⟨h, h'⟩ := T.settled b x hb hw fun h => hn (hins b (Ne.symm hab) h)
      exact ⟨by rw [if_neg hab, h], fun h => h' (hrem b h)⟩
  · have hab : a ≠ b := by
      rintro rfl
      obtain ⟨x, hx, -, hw, -⟩ := T.owner t a n bt hmem
      obtain ⟨u, n', bt', hu⟩ := h x hx hw
      obtain rfl := T.inserter_unique hmem (mem_of_update ht hu)
      simp at hu
    rw [if_neg hab]
    refine (T.unsettled b fun x hx hw => ?_).imp_right fun h => ⟨h.1, ?_⟩
    · obtain ⟨u, n', bt', hu⟩ := h x hx hw
      exact ⟨u, n', bt', mem_of_update ht hu⟩
    · obtain ⟨u, hu⟩ := h.2
      exact ⟨u, mem_update ht hu (by simp)⟩

/-- A thread removes a record. -/
theorem remove (T : Table limit held live acts) {t : ℕ} {a : Word} {l : List Act}
    (ht : acts t = .remove a :: l) :
    Table limit (fun b => if a = b then (held b).tail else held b) live
      (Function.update acts t l) := by
  have hhere : Removing acts a := ⟨t, by simp [ht]⟩
  have hins : ∀ b, Inserting acts b → Inserting (Function.update acts t l) b := by
    rintro b ⟨u, n, bt, hu⟩
    exact ⟨u, n, bt, mem_update ht hu (by simp)⟩
  refine ⟨fun u b n bt h => T.owner u b n bt (mem_of_update ht h), T.last_update ht,
    fun b x hb hw hn => ?_, fun b h => ?_⟩
  · obtain ⟨h, h'⟩ := T.settled b x hb hw fun h => hn (hins b h)
    have hab : a ≠ b := by rintro rfl; exact h' hhere
    exact ⟨by rw [if_neg hab, h], fun ⟨u, hu⟩ => h' ⟨u, mem_of_update ht hu⟩⟩
  · have hold := T.unsettled b fun x hx hw =>
      let ⟨u, n, bt, hu⟩ := h x hx hw
      ⟨u, n, bt, mem_of_update ht hu⟩
    by_cases hab : a = b
    · rw [if_pos hab]
      rcases hold with h | ⟨⟨r, h⟩, -⟩ <;> simp [h]
    · rw [if_neg hab]
      refine hold.imp_right fun ⟨h, u, hu⟩ => ⟨h, u, mem_update ht hu ?_⟩
      simpa using Ne.symm hab

end Table

/-! ## The steps of a thread -/

/-- What is left of the proxy of `c` before its original, and the guard. -/
inductive Before (g : Configs) (c : Call) : Bool → Hook Word → Prop
  | test : Before g c false (proxy c)
  | enter (h : c.tracked g false) : Before g c false c.guarded
  | call (h : c.tracked g false) : Before g c true (.op (HookOp.origin c) c.rest)
  | bare (h : ¬ c.tracked g false) : Before g c false (Hook.origin c)

/-- A program without an original that ends with the guard 0, if started with
    the guard `v`. -/
def Settles {α : Type} : Bool → Hook α → Prop
  | v, .ret _ => v = false
  | _, .op (.setGuard v) k => Settles v (k ())
  | v, .op .readLimit k => ∀ l, Settles v (k l)
  | v, .op .unwind k => ∀ bt, Settles v (k bt)
  | v, .op (.insert ..) k => Settles v (k ())
  | v, .op (.remove _) k => Settles v (k ())
  | _, .op .test _ | _, .op (.origin _) _ | _, .op .stackBase _ => False

theorem settles_ite {α : Type} {v : Bool} {p : Prop} [Decidable p] {x y : Hook α} :
    Settles v (if p then x else y) ↔ if p then Settles v x else Settles v y := by
  split <;> rfl

theorem rest_settles (v : Bool) (c : Call) (r : Word) : Settles v (c.rest r) := by
  cases c <;>
    simp [Call.rest, Call.tail, insertMemoryBacktrace, Hook.unwind, Hook.insert, Hook.remove,
      Hook.readLimit, Hook.setGuard, settles_ite, Settles]

namespace State
variable {g : Configs} {s s' : State} {t : ℕ} {r : Word} {x : Running}

/-- The accesses to come of the threads. -/
def acts (g : Configs) (s : State) (t : ℕ) : List Act := (s.thread t).acts g.limit

/-- The call of thread `t` returns. -/
def ended (s : State) (t : ℕ) : State :=
  { s with
    live := fun a => (s.live a).map fun b =>
      if b.inCall = some t then { b with inCall := none } else b
    thread := Function.update s.thread t ⟨(s.thread t).guard, none⟩ }

/-- A call whose original is still to come: it is one the program may make, and
    it has the block it passes. -/
structure Ready (g : Configs) (live : Word → Option Block) (t : ℕ) (c : Call) : Prop where
  watched : c.watched g
  small : c.bytes < 2 ^ 32
  passed : ∀ a, c.passed = some a → a ≠ 0 → ∃ b, live a = some b ∧ b.inCall = some t

/-- What the next operation of a thread does to the state. -/
inductive Next (g : Configs) (s : State) (t : ℕ) (r : Word) (x : Running) : State → Prop
  | ret (hp : pending g.limit x.backtrace x.rest = []) (hg : (s.thread t).guard = false) :
    Next g s t r x (s.ended t)
  | inner (v : Bool) (p : Hook Word)
    (hp : pending g.limit x.backtrace p = pending g.limit x.backtrace x.rest)
    (h : (Before g x.call v p ∧ Ready g s.live t x.call) ∨ Settles v p) :
    Next g s t r x (s.resume t x v p)
  | origin (v : Bool) (p : Hook Word) (live : Word → Option Block)
    (hready : Ready g s.live t x.call) (hp : pending g.limit x.backtrace x.rest = [])
    (hp' : pending g.limit x.backtrace p = x.call.accesses g x.backtrace r) (hs : Settles v p)
    (hr : returned s.live x.call r ⟨x.call, x.backtrace, some t⟩ = some live) :
    Next g s t r x { s.resume t x v p with live := live }
  | insert (a n : Word) (bt : Backtrace) (k : Unit → Hook Word) (c : MemoryCache)
    (he : x.rest = .op (HookOp.insert a n bt) k) (hf : s.cache.full = false)
    (hc : s.cache.insert a n bt = some c) (hs : Settles (s.thread t).guard (k ())) :
    Next g s t r x { s.resume t x (s.thread t).guard (k ()) with cache := c }
  | remove (a : Word) (k : Unit → Hook Word) (c : MemoryCache)
    (he : x.rest = .op (HookOp.remove a) k) (hc : s.cache.remove a = some c)
    (hs : Settles (s.thread t).guard (k ())) :
    Next g s t r x { s.resume t x (s.thread t).guard (k ()) with cache := c }

theorem next_cases
    (hx : (Before g x.call (s.thread t).guard x.rest ∧ Ready g s.live t x.call) ∨
      Settles (s.thread t).guard x.rest)
    (e : s.next g t r x = some s') : Next g s t r x s' := by
  obtain ⟨c, bt, p⟩ := x
  simp only at hx
  rcases hx with ⟨hb, hr⟩ | hs
  · have hexit := Call.ne_exit hr.watched
    generalize hg : (s.thread t).guard = v at hb
    cases hb with
    | test =>
      rw [proxy_eq hexit] at e
      simp only [next, hg, Option.some.injEq] at e
      subst e
      refine .inner _ _ ?_ (Or.inl ⟨?_, hr⟩)
      · simp only [proxy_eq hexit, pending]
        split <;> rfl
      · split
        exacts [.enter ‹_›, .bare ‹_›]
    | enter h =>
      simp only [Call.guarded_eq, next, Option.some.injEq] at e
      subst e
      exact .inner _ _ rfl (Or.inl ⟨.call h, hr⟩)
    | call h =>
      simp only [next, Option.map_eq_some_iff] at e
      obtain ⟨live, e, rfl⟩ := e
      exact .origin _ _ live hr rfl (by simp [Call.accesses, h, pending_rest]) (rest_settles ..) e
    | bare h =>
      simp only [Hook.origin, next, Option.map_eq_some_iff] at e
      obtain ⟨live, e, rfl⟩ := e
      exact .origin _ _ live hr rfl (by simp [Call.accesses, h, pending]) hg e
  · rcases p with a | ⟨o, k⟩
    · simp only [next, Option.some.injEq] at e
      subst e
      exact .ret rfl hs
    · cases o with
      | test | origin | stackBase => exact hs.elim
      | setGuard v =>
        simp only [next, Option.some.injEq] at e
        subst e
        exact .inner _ _ rfl (Or.inr hs)
      | readLimit =>
        simp only [next, Option.some.injEq] at e
        subst e
        exact .inner _ _ rfl (Or.inr (hs _))
      | unwind =>
        simp only [next, Option.some.injEq] at e
        subst e
        exact .inner _ _ rfl (Or.inr (hs _))
      | insert a n bt' =>
        simp only [next] at e
        split_ifs at e with hf
        obtain ⟨c', hc', rfl⟩ := Option.map_eq_some_iff.1 e
        exact .insert a n bt' k c' rfl (by simpa using hf) hc' hs
      | remove a =>
        simp only [next] at e
        obtain ⟨c', hc', rfl⟩ := Option.map_eq_some_iff.1 e
        exact .remove a k c' rfl hc' hs

/-! ## The invariant -/

structure Inv (g : Configs) (s : State) : Prop where
  wf : s.cache.Wf
  null : s.live 0 = none
  small : ∀ a b, s.live a = some b → b.call.size.toNat = b.call.bytes ∧ b.call.bytes < 2 ^ 32
  idle : ∀ t, (s.thread t).running = none → (s.thread t).guard = false
  phase : ∀ t x, (s.thread t).running = some x →
    (Before g x.call (s.thread t).guard x.rest ∧ Ready g s.live t x.call) ∨
      Settles (s.thread t).guard x.rest
  table : Table g.limit s.cache.held s.live (s.acts g)

theorem inv_init {c : MemoryCache} (hc : c.allocCache.mCount = allocCacheSize) :
    Inv g (init c) where
  wf := MemoryCache.Wf.reset hc
  null := rfl
  small := by simp [init]
  idle _ _ := rfl
  phase := by simp [init]
  table := ⟨fun t a n bt h => by simp [acts, init, Thread.acts] at h,
    fun t l a n bt l' h => by simp [acts, init, Thread.acts] at h,
    fun a b h => by simp [init] at h,
    fun a _ => Or.inl (MemoryCache.Wf.held_reset hc a)⟩

/-- The invariant after a step of thread `t` that leaves the others the blocks
    that their calls have. -/
theorem Inv.of_update (I : Inv g s) {c : MemoryCache} {live : Word → Option Block} {th : Thread}
    (wf : c.Wf) (null : live 0 = none)
    (small : ∀ a b, live a = some b → b.call.size.toNat = b.call.bytes ∧ b.call.bytes < 2 ^ 32)
    (hkeep : ∀ u, u ≠ t → ∀ a b, s.live a = some b → b.inCall = some u → live a = some b)
    (idle : th.running = none → th.guard = false)
    (phase : ∀ x, th.running = some x →
      (Before g x.call th.guard x.rest ∧ Ready g live t x.call) ∨ Settles th.guard x.rest)
    (table : Table g.limit c.held live (Function.update (s.acts g) t (th.acts g.limit))) :
    Inv g ⟨c, live, Function.update s.thread t th⟩ := by
  have hother : ∀ {u}, u ≠ t → Function.update s.thread t th u = s.thread u := fun hu =>
    Function.update_of_ne hu ..
  refine ⟨wf, null, small, fun u hu => ?_, fun u x hu => ?_, ?_⟩
  · by_cases h : u = t
    · subst h; simp only [Function.update_self] at hu ⊢; exact idle hu
    · simp only [hother h] at hu ⊢; exact I.idle u hu
  · by_cases h : u = t
    · subst h; simp only [Function.update_self] at hu ⊢; exact phase x hu
    · simp only [hother h] at hu ⊢
      refine (I.phase u x hu).imp_left fun ⟨hb, hr⟩ => ⟨hb, hr.watched, hr.small, fun a ha h0 => ?_⟩
      obtain ⟨b, hb, hbu⟩ := hr.passed a ha h0
      exact ⟨b, hkeep u h a b hb hbu, hbu⟩
  · convert table using 1
    funext u
    by_cases h : u = t
    · subst h; simp only [acts, Function.update_self]
    · simp only [acts, hother h, Function.update_of_ne h]

theorem Inv.start (I : Inv g s) (hp : g.isPss) (hv : g.isVss) {c : Call} {bt : Backtrace}
    (e : step g s (.start t c bt) = some s') : Inv g s' := by
  simp only [step, Bool.and_eq_true, Option.isNone_iff_eq_none] at e
  split_ifs at e with h
  obtain ⟨hidle, had⟩ := h
  simp only [admits, Bool.and_eq_true, decide_eq_true_eq] at had
  obtain ⟨hsmall, had⟩ := had
  have hwatched : c.watched g := by cases c <;> simp_all [Call.watched]
  have hfree : ∀ a, c.passed = some a → a = 0 ∨ ∃ b, s.live a = some b ∧ b.inCall = none := by
    intro a ha
    cases c <;> simp only [Call.passed, Option.some.injEq, reduceCtorEq] at ha <;> subst ha <;>
      simp only [Bool.or_eq_true, decide_eq_true_eq, Option.any_eq_true, Bool.and_eq_true,
        Option.isNone_iff_eq_none] at had
    · rcases had with h | ⟨b, hb, h⟩
      · exact Or.inl h
      · exact Or.inr ⟨b, hb, h.2⟩
    · rcases had with h | ⟨b, hb, h⟩
      · exact Or.inl h
      · exact Or.inr ⟨b, hb, h.2⟩
    · obtain ⟨b, hb, h⟩ := had
      exact Or.inr ⟨b, hb, h.2⟩
  have hkeep : ∀ a b u, s.live a = some b → b.inCall = some u → c.passed ≠ some a := by
    intro a b u hb hu ha
    rcases hfree a ha with rfl | ⟨b', hb', h⟩
    · rw [I.null] at hb; simp at hb
    · obtain rfl := Option.some.inj (hb.symm.trans hb')
      simp [hu] at h
  have hnil : s.acts g t = [] := by simp [acts, Thread.acts, hidle]
  obtain rfl := Option.some.inj e
  refine I.of_update I.wf ?_ ?_ ?_ (fun h => by simp at h) ?_ ?_
  · have h0 : s.live 0#64 = none := I.null
    simp [h0]
  · intro a b hb
    split_ifs at hb
    · obtain ⟨b', hb', rfl⟩ := Option.map_eq_some_iff.1 hb
      exact I.small a b' hb'
    · exact I.small a b hb
  · intro u _ a b hb hu
    simp only [if_neg (hkeep a b u hb hu), hb]
  · rintro x ⟨⟩
    refine Or.inl ⟨I.idle t hidle ▸ .test, hwatched, hsmall, fun a ha h0 => ?_⟩
    obtain ⟨b, hb, -⟩ := (hfree a ha).resolve_left h0
    exact ⟨{ b with inCall := some t }, by simp [ha, hb], rfl⟩
  · have hexit := Call.ne_exit hwatched
    have hnew : (Thread.acts g.limit ⟨(s.thread t).guard, some ⟨c, bt, proxy c⟩⟩) = s.acts g t := by
      simp only [Thread.acts, proxy_eq hexit, pending, hnil]
    rw [hnew, Function.update_eq_self]
    refine I.table.mark (fun a => ?_) fun a b u hb hu _ => ?_
    · by_cases ha : c.passed = some a <;> simp [ha, Function.comp_def]
    · simp only [if_neg (hkeep a b u hb hu), hb]

theorem acts_eq (hx : (s.thread t).running = some x) :
    s.acts g t = pending g.limit x.backtrace x.rest := by
  simp [acts, Thread.acts, hx]

/-- A call returns: nobody has its blocks any more. -/
theorem Inv.ended (I : Inv g s) (hnil : s.acts g t = []) (hg : (s.thread t).guard = false) :
    Inv g (s.ended t) := by
  refine I.of_update I.wf ?_ ?_ ?_ (fun _ => hg) nofun ?_
  · simp only [I.null, Option.map_none]
  · intro a b hb
    obtain ⟨b', hb', rfl⟩ := Option.map_eq_some_iff.1 hb
    have := I.small a b' hb'
    split_ifs <;> exact this
  · intro u hu a b hb hbu
    simp [hb, hbu, hu]
  · have hnew : Thread.acts g.limit ⟨(s.thread t).guard, none⟩ = s.acts g t := by
      rw [hnil]; rfl
    rw [hnew, Function.update_eq_self]
    refine I.table.mark (fun a => ?_) fun a b u hb hbu hne => ?_
    · simp only [Option.map_map]
      congr 1
      funext b
      simp only [Function.comp]
      split_ifs <;> rfl
    · have hut : u ≠ t := by rintro rfl; exact hne hnil
      simp [hb, hbu, hut]

/-- An original returns. -/
theorem Inv.origin (I : Inv g s) {v : Bool} {p : Hook Word} {live : Word → Option Block}
    (hnil : s.acts g t = []) (hready : Ready g s.live t x.call)
    (hp : pending g.limit x.backtrace p = x.call.accesses g x.backtrace r) (hs : Settles v p)
    (hr : returned s.live x.call r ⟨x.call, x.backtrace, some t⟩ = some live) :
    Inv g { s.resume t x v p with live := live } := by
  refine I.of_update I.wf (returned_null hr I.null) ?_ ?_ nofun ?_ ?_
  · intro a b hb
    rcases returned_back hr hb with ⟨h, rfl⟩ | ⟨hold, -⟩
    · exact ⟨Call.size_toNat hready.small h.1, hready.small⟩
    · exact I.small a b hold
  · intro u hu a b hb hbu
    refine (returned_keep hr hb fun ha => ?_).1
    have h0 : a ≠ 0 := by rintro rfl; rw [I.null] at hb; simp at hb
    obtain ⟨b', hb', h'⟩ := hready.passed a (Call.released_passed ha) h0
    obtain rfl := Option.some.inj (hb.symm.trans hb')
    exact hu (Option.some.inj (hbu.symm.trans h'))
  · rintro x' ⟨⟩
    exact Or.inr hs
  · have hnew : Thread.acts g.limit ⟨v, some { x with rest := p }⟩ =
        x.call.visible g.limit x.backtrace r :=
      hp.trans (Call.accesses_visible hready.watched (fun _ => hready.small) _)
    rw [hnew]
    exact I.table.origin hnil I.null hready.passed hr

/-- A thread goes on, and may have accessed the table. -/
theorem Inv.resume (I : Inv g s) {c : MemoryCache} {v : Bool} {p : Hook Word} (hwf : c.Wf)
    (hphase : (Before g x.call v p ∧ Ready g s.live t x.call) ∨ Settles v p)
    (htable : Table g.limit c.held s.live
      (Function.update (s.acts g) t (pending g.limit x.backtrace p))) :
    Inv g { s.resume t x v p with cache := c } := by
  refine I.of_update hwf I.null I.small (fun _ _ _ _ hb _ => hb) nofun ?_ htable
  rintro x' ⟨⟩
  exact hphase

theorem Inv.next (I : Inv g s) (ok : Clear g s (.next t r)) (e : step g s (.next t r) = some s') :
    Inv g s' := by
  obtain ⟨x, hx, e⟩ := Option.bind_eq_some_iff.1 e
  have hacts : s.acts g t = pending g.limit x.backtrace x.rest := acts_eq hx
  rcases next_cases (I.phase t x hx) e with
    ⟨hp, hg⟩ | ⟨v, p, hp, h⟩ | ⟨v, p, live, hready, hp, hp', hs, hr⟩ |
    ⟨a, n, bt, k, c, he, hf, hc, hs⟩ | ⟨a, k, c, he, hc, hs⟩
  · exact I.ended (hacts.trans hp) hg
  · refine I.resume I.wf h ?_
    rw [hp, ← hacts, Function.update_eq_self]
    exact I.table
  · exact I.origin (hacts.trans hp) hready hp' hs hr
  · have hl : s.acts g t = .insert a n bt :: pending g.limit x.backtrace (k ()) := by
      rw [hacts, he]; rfl
    obtain ⟨hwf, hheld⟩ := I.wf.held_insert hf hc
    refine I.resume hwf (Or.inr hs) ?_
    rw [funext hheld]
    exact I.table.insert hl (ok x a n bt k hx he)
  · have hl : s.acts g t = .remove a :: pending g.limit x.backtrace (k ()) := by
      rw [hacts, he]; rfl
    obtain ⟨hwf, hheld⟩ := I.wf.held_remove hc
    refine I.resume hwf (Or.inr hs) ?_
    rw [funext hheld]
    exact I.table.remove hl

/-! ## Runs -/

theorem Inv.exact (I : Inv g s) (q : s.Quiet) : Exact g s where
  recorded a b hb hw := by
    have hno : ¬ Inserting (s.acts g) a := by
      rintro ⟨t, n, bt, h⟩
      simp [acts, Thread.acts, q t] at h
    obtain ⟨hsize, hlt⟩ := I.small a b hb
    refine ⟨_, (I.table.settled a b hb hw hno).1, ?_, rfl⟩
    rw [Block.record, BitVec.toNat_setWidth, hsize, Nat.mod_eq_of_lt hlt]
  others h r hr := by
    have hh := I.wf.hash_of_mem_bucket hr
    by_contra hno
    push Not at hno
    have hmem : r ∈ s.cache.held r.addr := by
      rw [MemoryCache.held, hh]; simpa using hr
    rcases I.table.unsettled r.addr fun b hb hw => absurd hw (hno b hb) with h | ⟨-, t, h⟩
    · simp [h] at hmem
    · simp [acts, Thread.acts, q t] at h

theorem step_inv (hp : g.isPss) (hv : g.isVss) (s : State) (l : Label) (s' : State) (I : Inv g s)
    (ok : Clear g s l) (e : step g s l = some s') : Inv g s' := by
  cases l with
  | start t c bt => exact I.start hp hv e
  | next t r => exact I.next ok e

/-- A step leaves the other threads as they are. -/
theorem step_frame {l : Label} (e : step g s l = some s') {u : ℕ} (hu : u ≠ l.tid) :
    s'.thread u = s.thread u := by
  cases l with
  | start t c bt =>
    simp only [step] at e
    split_ifs at e
    obtain rfl := Option.some.inj e
    exact Function.update_of_ne hu ..
  | next t r =>
    obtain ⟨x, -, e⟩ := Option.bind_eq_some_iff.1 e
    unfold next at e
    split at e
    all_goals try split_ifs at e
    all_goals first
      | (obtain rfl := Option.some.inj e; exact Function.update_of_ne hu ..)
      | (obtain ⟨y, -, rfl⟩ := Option.map_eq_some_iff.1 e; exact Function.update_of_ne hu ..)
      | simp at e

theorem run_frame {u : ℕ} {ls : List Label} {s s' : State} (e : Lts.run (step g) s ls = some s')
    (h : ∀ l ∈ ls, u ≠ l.tid) : s'.thread u = s.thread u := by
  induction ls generalizing s with
  | nil => cases e; rfl
  | cons l ls ih =>
    obtain ⟨s₁, e₁, e⟩ := Lts.run_cons_some.1 e
    rw [ih e fun l' hl => h l' (List.mem_cons_of_mem l hl), step_frame e₁ (h l List.mem_cons_self)]

/-- The threads from `n` on are idle. -/
def IdleFrom (n : ℕ) (s : State) : Prop := ∀ u, n ≤ u → (s.thread u).running = none

/-- `Clear` for a step of a thread below `n`, tested on these threads only. -/
def clearBelow (n : ℕ) (g : Configs) (s : State) (l : Label) : Bool :=
  l.tid < n && match (s.thread l.tid).running with
    | some ⟨_, _, .op (.insert a _ _) _⟩ =>
      (List.range n).all fun u => u = l.tid || ((s.thread u).acts g.limit).all fun
        | .remove b => b ≠ a
        | .insert .. => true
    | _ => true

theorem IdleFrom.step {n : ℕ} {l : Label} (h : s.IdleFrom n) (hl : l.tid < n)
    (e : step g s l = some s') : s'.IdleFrom n := by
  intro u hu
  rw [step_frame e (by omega), h u hu]

theorem IdleFrom.run {n : ℕ} {ls : List Label} (h : s.IdleFrom n) (hl : ∀ l ∈ ls, l.tid < n)
    (e : Lts.run (State.step g) s ls = some s') : s'.IdleFrom n := by
  intro u hu
  rw [run_frame e fun l hm => by have := hl l hm; omega, h u hu]

theorem IdleFrom.quiet {n : ℕ} (h : s.IdleFrom n)
    (hn : ∀ u ∈ List.range n, (s.thread u).running.isNone) : s.Quiet := by
  intro u
  by_cases hu : u < n
  · exact Option.isNone_iff_eq_none.1 (hn u (List.mem_range.2 hu))
  · exact h u (by omega)

/-- Idle threads have no removal to come. -/
theorem IdleFrom.clear {n : ℕ} {l : Label} (h : s.IdleFrom n) (hc : s.clearBelow n g l) :
    Clear g s l := by
  obtain ⟨-, hc⟩ := Bool.and_eq_true_iff.1 hc
  cases l with
  | start => trivial
  | next t r =>
    rintro ⟨c, bt', p⟩ a m bt k hx rfl u hu hmem
    simp only [Label.tid, hx] at hc
    by_cases hn : u < n
    · have hall := List.all_eq_true.1 hc u (List.mem_range.2 hn)
      simp only [hu, decide_false, Bool.false_or, List.all_eq_true] at hall
      simpa using hall _ hmem
    · simp [Thread.acts, h u (by omega)] at hmem

theorem IdleFrom.along {n : ℕ} {ls : List Label} (h : s.IdleFrom n)
    (ha : Lts.Along (State.step g) (fun s l => s.clearBelow n g l) s ls) :
    Lts.Along (State.step g) (Clear g) s ls := by
  refine Lts.Along.imp (fun s l s' hs hc e => ?_) (fun s l hs hc => hs.clear hc) h ha
  exact hs.step (of_decide_eq_true (Bool.and_eq_true_iff.1 hc).1) e

end State

open State

/-- **The table is exact whenever no call is in progress**, in every
    interleaving whose insertions are all clear of removals still to come. -/
theorem threads_exact {g : Configs} (hp : g.isPss) (hv : g.isVss) {c : MemoryCache}
    (hc : c.allocCache.mCount = allocCacheSize) {ls : List Label} {s : State}
    (ok : Lts.Along (step g) (Clear g) (init c) ls) (e : Lts.run (step g) (init c) ls = some s)
    (q : s.Quiet) : Exact g s :=
  (Lts.run_inv (step_inv hp hv) (inv_init hc) ok e).exact q

def threeFrames : Backtrace := ⟨3, fun _ => 7⟩

/-- Thread `t` calls `c` and runs the proxy for `n` operations; the original
    returns `r`. -/
def steps (t : ℕ) (c : Call) (n : ℕ) (r : Word) : List Label :=
  .start t c threeFrames :: List.replicate n (.next t r)

/-- Thread 1 gets the address that thread 0 releases, and inserts its record
    after thread 0 has removed the old one. -/
def handedOver : List Label :=
  steps 0 (.malloc 2000) 7 4096 ++ steps 0 (.free 4096) 3 0 ++ steps 1 (.malloc 3000) 3 4096 ++
    List.replicate 3 (.next 0 0) ++ List.replicate 4 (.next 1 0)

theorem threads_exact_handedOver : ∃ s,
    Lts.run (step .both) (init .blank) handedOver = some s ∧ Exact .both s ∧
      (s.live 4096).map (·.call) = some (.malloc 3000) ∧
      s.cache.held 4096 = [⟨4096, 3000, [7]⟩] := by
  obtain ⟨s, e⟩ : ∃ s, Lts.run (step .both) (init .blank) handedOver = some s :=
    Option.isSome_iff_exists.1 (by decide +kernel)
  have hs : (Lts.run (step .both) (init .blank) handedOver).map (fun s =>
      ((List.range 2).all (fun u => (s.thread u).running.isNone), (s.live 4096).map (·.call),
        s.cache.held 4096)) =
      some (true, some (.malloc 3000), [⟨4096, 3000, [7]⟩]) := by decide +kernel
  rw [e] at hs
  simp only [Option.map_some, Option.some.injEq, Prod.mk.injEq, List.all_eq_true] at hs
  obtain ⟨hquiet, hlive, hheld⟩ := hs
  have idle : (init .blank).IdleFrom 2 := fun _ _ => rfl
  have ok : Lts.Along (step .both) (Clear .both) (init .blank) handedOver :=
    idle.along (by decide +kernel)
  have q : s.Quiet := (idle.run (by decide) e).quiet hquiet
  exact ⟨s, e, threads_exact rfl rfl rfl ok e q, hlive, hheld⟩

/-- The run that breaks it: between the `free` of thread 0 and its removal of
    the record, thread 1 gets the same address and inserts its own record. -/
def reuse : List Label :=
  steps 0 (.malloc 2000) 7 4096 ++ steps 0 (.free 4096) 3 0 ++ steps 1 (.malloc 3000) 7 4096 ++
    List.replicate 3 (.next 0 0)

theorem threads_not_exact : ¬ ∀ (g : Configs) (c : MemoryCache) (ls : List Label) (s : State),
    g.isPss → g.isVss → c.allocCache.mCount = allocCacheSize →
    Lts.run (step g) (init c) ls = some s → s.Quiet → Exact g s := by
  intro h
  obtain ⟨s, e⟩ : ∃ s, Lts.run (step .both) (init .blank) reuse = some s :=
    Option.isSome_iff_exists.1 (by decide +kernel)
  have hs : (Lts.run (step .both) (init .blank) reuse).map (fun s =>
      ((List.range 2).all (fun u => (s.thread u).running.isNone), s.cache.held 4096,
        (s.live 4096).map (·.call))) =
      some (true, [⟨4096, 2000, [7]⟩], some (.malloc 3000)) := by decide +kernel
  rw [e] at hs
  simp only [Option.map_some, Option.some.injEq, Prod.mk.injEq, List.all_eq_true,
    Option.map_eq_some_iff] at hs
  obtain ⟨hquiet, hheld, b, hb, hcall⟩ := hs
  have idle : (init .blank).IdleFrom 2 := fun _ _ => rfl
  have q : s.Quiet := (idle.run (by decide) e).quiet hquiet
  obtain ⟨r, hr, hsize, -⟩ := (h .both .blank reuse s rfl rfl rfl e q).recorded 4096 b hb
    (by rw [hcall]; decide)
  rw [hheld, List.cons.injEq] at hr
  rw [hcall, ← hr.1] at hsize
  exact absurd hsize (by decide)

end Raphael
