/-
  The sessions of the Java class (Raphael.java) over the native ones
  (xloader.cpp, Raphael.cpp).

  Any number of threads call `start`, `stop` and `print`.  The test of
  `sIsRunning` is one step; the native call behind it makes its reads and writes
  of `mCache`, and its accesses to the table it found there, one by one.

  Of the tables only their life is kept, and the session each was made for.
  Sessions are numbered by the starts that pass.

  * `start_sound`, `stop_sound`: what the two native functions do when nothing
    interferes.
  * `sessions_safe`: `nPrint` and `nStop` use only the table of a started
    session, and each table is deleted at most once, by the stop that ends its
    session, provided that no test passes while a call that passed before has
    still to do what the flag says.
-/
import Raphael.Lifecycle

namespace Raphael

namespace Sessions

open Lifecycle (Life)

/-! ## Native calls -/

/-- `mCache` and the tables, in the order of their creation. -/
structure Shared where
  mCache : Option ℕ
  life : ℕ → Life
  /-- the session that a table was made for -/
  owner : ℕ → ℕ
  made : ℕ
  /-- the tables that were deleted, each with the session that the stop ended -/
  deletions : List (ℕ × ℕ)

inductive Op
  /-- `mCache = new MemoryCache(mSpace)` -/
  | new
  /-- read `mCache` -/
  | load
  /-- `reset()` of the table that was read -/
  | reset
  /-- an access of `MemoryCache::print` to the table that was read -/
  | use
  /-- `delete` of the table that was read -/
  | delete
  /-- `mCache = nullptr` -/
  | clear
  deriving DecidableEq

/-- An operation of a call for session `k`; `p` is what the call read last.  An
    access through `nullptr` has no result. -/
def Op.exec (k : ℕ) (c : Shared) (p : Option ℕ) : Op → Option (Shared × Option ℕ)
  | new => some ({ c with
      mCache := some c.made
      life := Function.update c.life c.made .fresh
      owner := Function.update c.owner c.made k
      made := c.made + 1 }, p)
  | load => some (c, c.mCache)
  | reset => p.map fun i => ({ c with life := Function.update c.life i .ready }, p)
  | use => p.map fun _ => (c, p)
  | delete => match p with
    | none => some (c, p)
    | some i => some ({ c with
        life := Function.update c.life i .deleted
        deletions := (i, k) :: c.deletions }, p)
  | clear => some ({ c with mCache := none }, p)

/-- `Raphael::start`: `update_configs(mCache, ..)` before and behind `reset` -/
def nStart : List Op := [.new, .load, .load, .reset, .load]

/-- `Raphael::print`, where `MemoryCache::print` makes `n` accesses -/
def nPrint (n : ℕ) : List Op := .load :: List.replicate n .use

/-- `Raphael::stop` -/
def nStop (n : ℕ) : List Op := nPrint n ++ [.load, .delete, .clear]

/-! ## Java calls -/

inductive Kind
  | start | stop | print
  deriving DecidableEq

/-- A call that passed its test: the session, what it read last, and what is
    left of the native function. -/
structure Running where
  kind : Kind
  session : ℕ
  cache : Option ℕ
  todo : List Op

structure State where
  sIsRunning : Bool
  shared : Shared
  /-- the number of the last session -/
  session : ℕ
  /-- `nStart` of the session has returned -/
  started : ℕ → Bool
  thread : ℕ → Option Running

inductive Label
  | start (t : ℕ)
  | stop (t n : ℕ)
  | print (t n : ℕ)
  /-- thread `t` goes on in its native call, or returns -/
  | go (t : ℕ)

namespace State

def put (s : State) (t : ℕ) (r : Option Running) : State :=
  { s with thread := Function.update s.thread t r }

/-- `Raphael.start` up to `nStart` -/
def start (s : State) (t : ℕ) : State :=
  if s.sIsRunning then s
  else { s with sIsRunning := true, session := s.session + 1 }.put t
    (some ⟨.start, s.session + 1, none, nStart⟩)

/-- `Raphael.stop` up to `nStop` -/
def stop (s : State) (t n : ℕ) : State :=
  if s.sIsRunning then
    { s with sIsRunning := false }.put t (some ⟨.stop, s.session, none, nStop n⟩)
  else s

/-- `Raphael.print` up to `nPrint` -/
def print (s : State) (t n : ℕ) : State :=
  if s.sIsRunning then s.put t (some ⟨.print, s.session, none, nPrint n⟩) else s

/-- The call returns. -/
def finish (s : State) (t : ℕ) (r : Running) : State :=
  { s with started := if r.kind = Kind.start then Function.update s.started r.session true
                      else s.started }.put t none

def step (s : State) : Label → Option State
  | .start t => if (s.thread t).isNone then some (s.start t) else none
  | .stop t n => if (s.thread t).isNone then some (s.stop t n) else none
  | .print t n => if (s.thread t).isNone then some (s.print t n) else none
  | .go t => (s.thread t).bind fun r => match r.todo with
    | [] => some (s.finish t r)
    | o :: todo => (o.exec r.session s.shared r.cache).map fun x =>
      { s with shared := x.1 }.put t (some { r with cache := x.2, todo := todo })

/-- Before the first start. -/
def init : State :=
  ⟨false, ⟨none, fun _ => .fresh, fun _ => 0, 0, []⟩, 0, fun _ => false, fun _ => none⟩

end State

/-! ## Safety -/

/-- The next operation accesses the table. -/
def Running.touches (r : Running) : Prop := r.todo.head? = some .use ∨ r.todo.head? = some .delete

namespace State

structure Safe (s : State) : Prop where
  /-- `nPrint` and `nStop` use a table that is reset and not deleted, whose
      `nStart` has returned -/
  live : ∀ t r, s.thread t = some r → r.kind ≠ .start → r.touches →
    ∃ i, r.cache = some i ∧ s.shared.life i = .ready ∧ s.started (s.shared.owner i)
  /-- `nStart` and `nStop` do not overlap -/
  alone : ∀ t u r q, s.thread t = some r → s.thread u = some q → r.kind ≠ .print →
    q.kind ≠ .print → t = u
  /-- a table is deleted at most once -/
  once : (s.shared.deletions.map Prod.fst).Nodup
  /-- and by the stop that ends its session -/
  own : ∀ x ∈ s.shared.deletions, s.shared.owner x.1 = x.2

/-- No start or print passes while an `nStart` or `nStop` has still to return,
    and no stop while any native call has. -/
def Quiet (s : State) : Label → Prop
  | .start _ => s.sIsRunning = false → ∀ t r, s.thread t = some r → r.kind = .print
  | .print .. => s.sIsRunning = true → ∀ t r, s.thread t = some r → r.kind = .print
  | .stop .. => s.sIsRunning = true → ∀ t, s.thread t = none
  | .go _ => True

end State

/-! ## What the native functions do -/

/-- The deletions so far are in order. -/
structure Shared.Tidy (c : Shared) : Prop where
  made : ∀ x ∈ c.deletions, x.1 < c.made
  once : (c.deletions.map Prod.fst).Nodup
  own : ∀ x ∈ c.deletions, c.owner x.1 = x.2

/-- `mCache` is the table `i` of session `k`, ready for use. -/
structure Shared.Has (c : Shared) (k i : ℕ) : Prop where
  cache : c.mCache = some i
  life : c.life i = .ready
  owner : c.owner i = k
  made : i < c.made
  kept : i ∉ c.deletions.map Prod.fst

/-- A call for session `k` that goes on undisturbed: before each operation that
    touches the table it is ready, the deletions stay in order, and the call
    ends with `Post`. -/
def Sound (k : ℕ) (touch : Bool) (Post : Shared → Prop) : List Op → Shared → Option ℕ → Prop
  | [], c, _ => c.Tidy ∧ Post c
  | o :: todo, c, p => c.Tidy ∧
      (touch → o = .use ∨ o = .delete → ∃ i, p = some i ∧ c.life i = .ready ∧ c.owner i = k) ∧
      ∀ c' p', o.exec k c p = some (c', p') → Sound k touch Post todo c' p'

section native
variable {c : Shared} {k i : ℕ} {p : Option ℕ} {touch : Bool} {Post : Shared → Prop}
  {todo : List Op}

theorem Sound.tidy (h : Sound k touch Post todo c p) : c.Tidy := by
  cases todo with
  | nil => exact h.1
  | cons o todo => exact h.1

/-- Reading `mCache`. -/
theorem sound_load (hc : c.Tidy) (h : Sound k touch Post todo c c.mCache) :
    Sound k touch Post (.load :: todo) c p := by
  refine ⟨hc, fun _ ho => ?_, fun c' p' e => ?_⟩
  · rcases ho with ho | ho <;> cases ho
  · cases e
    exact h

/-- The accesses of `MemoryCache::print`. -/
theorem sound_uses (hc : c.Tidy) (hi : c.Has k i) (h : Sound k touch Post todo c (some i)) :
    ∀ n, Sound k touch Post (List.replicate n .use ++ todo) c (some i) := by
  intro n
  induction n with
  | zero => exact h
  | succ n ih =>
    refine ⟨hc, fun _ _ => ⟨i, rfl, hi.life, hi.owner⟩, fun c' p' e => ?_⟩
    cases e
    exact ih

theorem tidy_new (hc : c.Tidy) : Shared.Tidy { c with
    mCache := some c.made
    life := Function.update c.life c.made .fresh
    owner := Function.update c.owner c.made k
    made := c.made + 1 } where
  made x hx := Nat.lt_succ_of_lt (hc.made x hx)
  once := hc.once
  own x hx := by
    rw [← hc.own x hx]
    exact Function.update_of_ne (Nat.ne_of_lt (hc.made x hx)) ..

/-- **`nStart`** leaves a ready table of its session. -/
theorem start_sound (hc : c.Tidy) :
    Sound k false (fun c => ∃ i, c.Has k i) nStart c p := by
  refine ⟨hc, nofun, fun c₁ p₁ e => ?_⟩
  cases e
  have hnew := tidy_new (k := k) hc
  refine sound_load hnew (sound_load hnew ⟨hnew, nofun, fun c₂ p₂ e => ?_⟩)
  cases e
  have hready := hnew
  refine sound_load ⟨hnew.made, hnew.once, hnew.own⟩ ⟨⟨hnew.made, hnew.once, hnew.own⟩, c.made, ?_⟩
  refine ⟨rfl, by simp, by simp, Nat.lt_succ_self _, fun hmem => ?_⟩
  obtain ⟨x, hx, hxi⟩ := List.mem_map.1 hmem
  exact absurd (hc.made x hx) (by omega)

/-- **`nStop`** deletes the table of its session. -/
theorem stop_sound (hc : c.Tidy) (hi : c.Has k i) (n : ℕ) :
    Sound k true (fun _ => True) (nStop n) c p := by
  refine sound_load hc ?_
  rw [hi.cache]
  refine sound_uses hc hi (sound_load hc ?_) n
  rw [hi.cache]
  refine ⟨hc, fun _ _ => ⟨i, rfl, hi.life, hi.owner⟩, fun c' p' e => ?_⟩
  cases e
  have hdel : Shared.Tidy { c with
      life := Function.update c.life i .deleted, deletions := (i, k) :: c.deletions } := by
    refine ⟨?_, ?_, ?_⟩
    · exact List.forall_mem_cons.2 ⟨hi.made, hc.made⟩
    · exact List.nodup_cons.2 ⟨hi.kept, hc.once⟩
    · exact List.forall_mem_cons.2 ⟨hi.owner, hc.own⟩
  refine ⟨hdel, fun _ ho => ?_, fun c' p' e => ?_⟩
  · rcases ho with ho | ho <;> cases ho
  · cases e
    exact ⟨⟨hdel.made, hdel.once, hdel.own⟩, trivial⟩

end native

/-! ## Phases -/

/-- A print at work: it has still to read `mCache`, or it read the table `i`. -/
def Running.Printing (i : ℕ) (r : Running) : Prop :=
  (∃ n, r.todo = nPrint n) ∨ r.cache = some i ∧ ∃ n, r.todo = List.replicate n .use

/-- A print only reads: `mCache` first, and then the table. -/
theorem Running.Printing.reads {r : Running} {c c' : Shared} {k i : ℕ} {o : Op} {todo : List Op}
    {p : Option ℕ} (h : r.Printing i) (hi : c.mCache = some i) (htodo : r.todo = o :: todo)
    (e : o.exec k c r.cache = some (c', p)) :
    c' = c ∧ p = some i ∧ ∃ n, todo = List.replicate n .use := by
  rcases h with ⟨n, hn⟩ | ⟨hcache, n, hn⟩
  · rw [htodo] at hn
    cases hn
    cases e
    exact ⟨rfl, hi, n, rfl⟩
  · rw [htodo] at hn
    cases n with
    | zero => cases hn
    | succ n =>
      cases hn
      rw [hcache] at e
      cases e
      exact ⟨rfl, rfl, n, rfl⟩

namespace State

/-- No native call but, perhaps, that of thread `t`. -/
def Only (s : State) (t : ℕ) : Prop := ∀ u, u ≠ t → s.thread u = none

/-- Where the threads together are. -/
inductive Phase (s : State) : Prop
  /-- no session, and no native call -/
  | idle (hrun : s.sIsRunning = false) (hfree : ∀ t, s.thread t = none) (hc : s.shared.Tidy)
  /-- a session whose `nStart` is at work, alone -/
  | starting (t : ℕ) (r : Running) (hrun : s.sIsRunning = true) (ht : s.thread t = some r)
      (honly : s.Only t) (hk : r.kind = .start) (hn : r.session = s.session)
      (hs : Sound s.session false (fun c => ∃ i, c.Has s.session i) r.todo s.shared r.cache)
  /-- a started session, with any number of prints at work -/
  | running (i : ℕ) (hrun : s.sIsRunning = true) (hi : s.shared.Has s.session i)
      (hst : s.started s.session) (hc : s.shared.Tidy)
      (hprint : ∀ t r, s.thread t = some r → r.kind = .print ∧ r.Printing i)
  /-- the end of a session, whose `nStop` is at work, alone -/
  | stopping (t : ℕ) (r : Running) (hrun : s.sIsRunning = false) (ht : s.thread t = some r)
      (honly : s.Only t) (hk : r.kind = .stop) (hn : r.session = s.session)
      (hst : s.started s.session)
      (hs : Sound s.session true (fun _ => True) r.todo s.shared r.cache)

section phases
variable {s s' : State} {t : ℕ} {r : Running}

theorem Only.eq (h : s.Only t) {u : ℕ} (hu : s.thread u = some r) : u = t := by
  by_contra hne
  rw [h u hne] at hu
  cases hu

@[simp] theorem put_self (v : Option Running) : (s.put t v).thread t = v := Function.update_self ..

theorem put_of_ne {u : ℕ} (h : u ≠ t) (v : Option Running) : (s.put t v).thread u = s.thread u :=
  Function.update_of_ne h ..

theorem Only.put (h : s.Only t) (v : Option Running) : (s.put t v).Only t :=
  fun u hu => (put_of_ne hu v).trans (h u hu)

theorem Phase.safe (h : s.Phase) : s.Safe := by
  cases h with
  | idle hrun hfree hc =>
    refine ⟨fun t r ht => ?_, fun t u r q ht => ?_, hc.once, hc.own⟩ <;>
    · rw [hfree] at ht
      cases ht
  | starting t r hrun ht honly hk hn hs =>
    refine ⟨fun u q hu hq => ?_, fun u v p q hu hv _ _ => ?_, hs.tidy.once, hs.tidy.own⟩
    · obtain rfl := honly.eq hu
      obtain rfl := Option.some.inj (ht.symm.trans hu)
      exact absurd hk hq
    · rw [honly.eq hu, honly.eq hv]
  | running i hrun hi hst hc hprint =>
    refine ⟨fun u q hu hq htouch => ?_, fun u v p q hu _ hp _ => ?_, hc.once, hc.own⟩
    · obtain ⟨-, ⟨n, hn⟩ | ⟨hcache, -⟩⟩ := hprint u q hu
      · rcases htouch with h | h <;> rw [hn] at h <;> cases h
      · exact ⟨i, hcache, hi.life, by rw [hi.owner]; exact hst⟩
    · exact absurd (hprint u p hu).1 hp
  | stopping t r hrun ht honly hk hn hst hs =>
    refine ⟨fun u q hu hq htouch => ?_, fun u v p q hu hv _ _ => ?_, hs.tidy.once, hs.tidy.own⟩
    · obtain rfl := honly.eq hu
      obtain rfl := Option.some.inj (ht.symm.trans hu)
      obtain ⟨kind, session, cache, todo⟩ := r
      cases todo with
      | nil => rcases htouch with h | h <;> cases h
      | cons o todo =>
        have ho : o = .use ∨ o = .delete := htouch.imp Option.some.inj Option.some.inj
        obtain ⟨i, hcache, hlife, howner⟩ := hs.2.1 rfl ho
        exact ⟨i, hcache, hlife, by rw [howner]; exact hst⟩
    · rw [honly.eq hu, honly.eq hv]

/-! ## Steps -/

theorem start_phase (h : s.Phase) (ok : s.Quiet (.start t)) : (s.start t).Phase := by
  unfold State.start
  split_ifs with hr
  · exact h
  · have hr : s.sIsRunning = false := by simpa using hr
    cases h with
    | idle hrun hfree hc =>
      exact .starting t _ rfl (put_self _) (fun u hu => (put_of_ne hu _).trans (hfree u)) rfl rfl
        (start_sound hc)
    | starting u q hrun => rw [hr] at hrun; cases hrun
    | running i hrun => rw [hr] at hrun; cases hrun
    | stopping u q hrun hu honly hk =>
      have hq := ok hr u q hu
      rw [hk] at hq
      cases hq

theorem stop_phase (h : s.Phase) {n : ℕ} (ok : s.Quiet (.stop t n)) : (s.stop t n).Phase := by
  unfold State.stop
  split_ifs with hr
  · cases h with
    | idle hrun => rw [hr] at hrun; cases hrun
    | starting u q hrun hu =>
      have hq := ok hr u
      rw [hu] at hq
      cases hq
    | running i hrun hi hst hc hprint =>
      exact .stopping t _ rfl (put_self _) (fun u hu => (put_of_ne hu _).trans (ok hr u)) rfl rfl
        hst (stop_sound hc hi n)
    | stopping u q hrun => rw [hr] at hrun; cases hrun
  · exact h

theorem print_phase (h : s.Phase) {n : ℕ} (ok : s.Quiet (.print t n)) : (s.print t n).Phase := by
  unfold State.print
  split_ifs with hr
  · cases h with
    | idle hrun => rw [hr] at hrun; cases hrun
    | starting u q hrun hu honly hk =>
      have hq := ok hr u q hu
      rw [hk] at hq
      cases hq
    | running i hrun hi hst hc hprint =>
      refine .running i hrun hi hst hc fun u q hu => ?_
      by_cases hut : u = t
      · subst hut
        rw [put_self] at hu
        obtain rfl := Option.some.inj hu
        exact ⟨rfl, Or.inl ⟨n, rfl⟩⟩
      · rw [put_of_ne hut] at hu
        exact hprint u q hu
    | stopping u q hrun => rw [hr] at hrun; cases hrun
  · exact h

/-- How a native call goes on. -/
theorem go_cases (e : s.step (.go t) = some s') : ∃ r, s.thread t = some r ∧
    ((r.todo = [] ∧ s' = s.finish t r) ∨
      ∃ o todo c p, r.todo = o :: todo ∧ o.exec r.session s.shared r.cache = some (c, p) ∧
        s' = { s with shared := c }.put t (some { r with cache := p, todo := todo })) := by
  obtain ⟨r, ht, e⟩ := Option.bind_eq_some_iff.1 e
  refine ⟨r, ht, ?_⟩
  split at e
  · next htodo =>
    cases e
    exact Or.inl ⟨htodo, rfl⟩
  · next o todo htodo =>
    obtain ⟨⟨c, p⟩, hx, rfl⟩ := Option.map_eq_some_iff.1 e
    exact Or.inr ⟨o, todo, c, p, htodo, hx, rfl⟩

theorem go_phase (h : s.Phase) (e : s.step (.go t) = some s') : s'.Phase := by
  obtain ⟨r, ht, hgo⟩ := go_cases e
  cases h with
  | idle hrun hfree hc =>
    rw [hfree] at ht
    cases ht
  | starting u q hrun hu honly hk hn hs =>
    obtain rfl := honly.eq ht
    obtain rfl := Option.some.inj (ht.symm.trans hu)
    rcases hgo with ⟨htodo, rfl⟩ | ⟨o, todo, c, p, htodo, hx, rfl⟩
    · rw [htodo] at hs
      obtain ⟨hc, i, hi⟩ := hs
      refine .running i hrun hi ?_ hc fun v q hv => ?_
      · simp [finish, hk, hn, put]
      · rw [(honly.put none).eq hv, finish, put_self] at hv
        cases hv
    · rw [htodo] at hs
      rw [hn] at hx
      exact .starting t _ hrun (put_self _) (honly.put _) hk hn (hs.2.2 c p hx)
  | running i hrun hi hst hc hprint =>
    have hother : ∀ {c : Shared} {st : ℕ → Bool} {v : Option Running} {u : ℕ} {q : Running},
        u ≠ t → (({ s with shared := c, started := st } : State).put t v).thread u = some q →
          q.kind = .print ∧ q.Printing i := by
      intro c st v u q hut hu
      rw [put_of_ne hut] at hu
      exact hprint u q hu
    obtain ⟨hk, hp⟩ := hprint t r ht
    rcases hgo with ⟨htodo, rfl⟩ | ⟨o, todo, c, p, htodo, hx, rfl⟩
    · refine .running i hrun hi ?_ hc fun u q hu => ?_
      · simpa [finish, hk, put] using hst
      · by_cases hut : u = t
        · subst hut
          rw [finish, put_self] at hu
          cases hu
        · exact hother hut hu
    · obtain ⟨rfl, rfl, n, rfl⟩ := hp.reads hi.cache htodo hx
      refine .running i hrun hi hst hc fun u q hu => ?_
      by_cases hut : u = t
      · subst hut
        rw [put_self] at hu
        obtain rfl := Option.some.inj hu
        exact ⟨hk, Or.inr ⟨rfl, n, rfl⟩⟩
      · exact hother hut hu
  | stopping u q hrun hu honly hk hn hst hs =>
    obtain rfl := honly.eq ht
    obtain rfl := Option.some.inj (ht.symm.trans hu)
    rcases hgo with ⟨htodo, rfl⟩ | ⟨o, todo, c, p, htodo, hx, rfl⟩
    · rw [htodo] at hs
      refine .idle hrun (fun v => ?_) hs.1
      by_cases hv : v = t
      · subst hv
        exact put_self _
      · exact (honly.put none) v hv
    · rw [htodo] at hs
      rw [hn] at hx
      exact .stopping t _ hrun (put_self _) (honly.put _) hk hn hst (hs.2.2 c p hx)

theorem step_phase (s : State) (l : Label) (s' : State) (h : s.Phase) (ok : s.Quiet l)
    (e : s.step l = some s') : s'.Phase := by
  cases l with
  | start t =>
    obtain ⟨-, rfl⟩ := Lts.of_guard e
    exact start_phase h ok
  | stop t n =>
    obtain ⟨-, rfl⟩ := Lts.of_guard e
    exact stop_phase h ok
  | print t n =>
    obtain ⟨-, rfl⟩ := Lts.of_guard e
    exact print_phase h ok
  | go t => exact go_phase h e

theorem init_phase : init.Phase :=
  .idle rfl (fun _ => rfl) ⟨by simp [init], by simp [init], by simp [init]⟩

end phases

end State

open State

/-- **`nPrint` and `nStop` run on started sessions only**, and each table is
    deleted at most once, by the stop of its session, in every run whose tests
    pass quietly. -/
theorem sessions_safe {ls : List Label} {s : State} (ok : Lts.Along step Quiet init ls)
    (h : Lts.run step init ls = some s) : s.Safe :=
  (Lts.run_inv step_phase init_phase ok h).safe

/-! ## Two threads -/

def Label.thread : Label → ℕ
  | .start t | .stop t _ | .print t _ | .go t => t

namespace State

/-- The threads from `n` on make no call. -/
def IdleFrom (n : ℕ) (s : State) : Prop := ∀ u, n ≤ u → s.thread u = none

/-- `Quiet` for a step of a thread below `n`, tested on these threads only. -/
def quietBelow (n : ℕ) (s : State) (l : Label) : Bool :=
  l.thread < n && match l with
    | .start _ => s.sIsRunning || (List.range n).all fun u => (s.thread u).all (·.kind = .print)
    | .print .. => !s.sIsRunning || (List.range n).all fun u => (s.thread u).all (·.kind = .print)
    | .stop .. => !s.sIsRunning || (List.range n).all fun u => (s.thread u).isNone
    | .go _ => true

theorem put_frame {s : State} {t u : ℕ} {s₁ : State} {v : Option Running} (hu : u ≠ t)
    (h : s₁.thread = s.thread) : (s₁.put t v).thread u = s.thread u := by
  rw [put_of_ne hu, h]

/-- A step leaves the other threads as they are. -/
theorem step_frame {s s' : State} {l : Label} {u : ℕ} (hu : u ≠ l.thread)
    (e : s.step l = some s') : s'.thread u = s.thread u := by
  cases l with
  | start t =>
    obtain ⟨-, rfl⟩ := Lts.of_guard e
    unfold State.start
    split_ifs
    exacts [rfl, put_frame hu rfl]
  | stop t n =>
    obtain ⟨-, rfl⟩ := Lts.of_guard e
    unfold State.stop
    split_ifs
    exacts [put_frame hu rfl, rfl]
  | print t n =>
    obtain ⟨-, rfl⟩ := Lts.of_guard e
    unfold State.print
    split_ifs
    exacts [put_frame hu rfl, rfl]
  | go t =>
    obtain ⟨r, -, ⟨-, rfl⟩ | ⟨o, todo, c, p, -, -, rfl⟩⟩ := go_cases e
    exacts [put_frame hu rfl, put_frame hu rfl]

section below
variable {n : ℕ} {s s' : State} {l : Label}

theorem IdleFrom.step (h : s.IdleFrom n) (hl : l.thread < n) (e : s.step l = some s') :
    s'.IdleFrom n := by
  intro u hu
  rw [step_frame (by omega) e, h u hu]

/-- The prints are tested on the threads below `n`. -/
theorem IdleFrom.prints (h : s.IdleFrom n)
    (hn : (List.range n).all fun u => (s.thread u).all (·.kind = .print)) :
    ∀ t r, s.thread t = some r → r.kind = .print := by
  intro t r ht
  by_cases hlt : t < n
  · have hall := List.all_eq_true.1 hn t (List.mem_range.2 hlt)
    simpa [ht] using hall
  · rw [h t (by omega)] at ht
    cases ht

theorem IdleFrom.quiet (h : s.IdleFrom n) (hq : s.quietBelow n l) : s.Quiet l := by
  obtain ⟨-, hq⟩ := Bool.and_eq_true_iff.1 hq
  cases l with
  | start t =>
    intro hrun
    exact h.prints (by simpa [hrun] using hq)
  | print t m =>
    intro hrun
    exact h.prints (by simpa [hrun] using hq)
  | stop t m =>
    intro hrun u
    by_cases hu : u < n
    · have hall : (List.range n).all fun u => (s.thread u).isNone := by simpa [hrun] using hq
      exact Option.isNone_iff_eq_none.1 (List.all_eq_true.1 hall u (List.mem_range.2 hu))
    · exact h u (by omega)
  | go t => trivial

theorem IdleFrom.along {ls : List Label} (h : s.IdleFrom n)
    (ha : Lts.Along State.step (fun s l => s.quietBelow n l) s ls) :
    Lts.Along State.step Quiet s ls := by
  refine Lts.Along.imp (fun s l s' hs hq e => ?_) (fun s l hs hq => hs.quiet hq) h ha
  exact hs.step (of_decide_eq_true (Bool.and_eq_true_iff.1 hq).1) e

end below

end State

/-- Thread `t` goes on for `n` steps. -/
def goOn (t n : ℕ) : List Label := List.replicate n (.go t)

/-- Two threads print side by side in a session that one of them started and the
    other stops, and then the other way round. -/
def inTurns : List Label :=
  .start 0 :: goOn 0 6 ++ [.print 1 2, .go 1, .print 0 1, .go 0, .go 1, .go 0, .go 1, .go 1, .go 0] ++
    .stop 1 1 :: goOn 1 6 ++ .start 1 :: goOn 1 6 ++ .print 0 1 :: goOn 0 3 ++
    .stop 0 0 :: goOn 0 5

theorem sessions_safe_inTurns : ∃ s, Lts.run step init inTurns = some s ∧
    s.shared.deletions = [(1, 2), (0, 1)] ∧ s.Safe := by
  obtain ⟨s, e, hs⟩ : ∃ s, Lts.run step init inTurns = some s ∧
      s.shared.deletions = [(1, 2), (0, 1)] := Option.map_eq_some_iff.1 (by decide +kernel)
  have idle : init.IdleFrom 2 := fun _ _ => rfl
  exact ⟨s, e, hs, sessions_safe (idle.along (by decide +kernel)) e⟩

/-- A print of thread 1 behind the test of a start. -/
def earlyPrint : List Label := [.start 0, .print 1 1, .go 1]

/-- **A print may run before there is a table.** -/
theorem sessions_unsafe : ¬ ∀ ls s, Lts.run step init ls = some s → s.Safe := by
  intro h
  obtain ⟨i, hi, -⟩ := (h earlyPrint _ rfl).live 1 _ rfl (by decide) (Or.inl rfl)
  cases hi

end Sessions

end Raphael
