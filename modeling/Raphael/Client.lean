/-
  What the hooked calls mean to their callers, to the allocator and to the
  kernel: the memory a call asked for, obtained and released.

  * `Call.visible`: what the table should do about a call that returned.
  * `Call.accesses_eq`, `Call.accesses_visible`: what the proxies do about it,
    and when that is the same.
  * `returned`: the live memory after an original returned.
-/
import Raphael.Proxy

namespace Raphael

namespace Call

/-- The bytes a call asks for; for `calloc` the product of the two integers. -/
def bytes : Call → ℕ
  | malloc size | realloc _ size | memalign _ size => size.toNat
  | calloc count bytes => count.toNat * bytes.toNat
  | mmap _ size .. | mmap64 _ size .. => size.toNat
  | munmap _ size => size.toNat
  | free _ | pthreadExit _ => 0

/-- The call asks the kernel for a mapping. -/
def isMap : Call → Bool
  | mmap .. | mmap64 .. => true
  | _ => false

/-- The call obtained memory at `r` when it returned `r`. -/
def obtains (r : Word) : Call → Bool
  | malloc _ | calloc .. | memalign .. | realloc .. => r ≠ 0
  | mmap .. | mmap64 .. => r ≠ mapFailed
  | free _ | munmap .. | pthreadExit _ => false

/-- The address a call passes to be released. -/
def passed : Call → Option Word
  | free address => some address
  | realloc ptr _ => some ptr
  | munmap address _ => some address
  | _ => none

/-- The address whose memory the call released when it returned `r`. -/
def released (r : Word) : Call → Option Word
  | free address => some address
  | realloc ptr size => if size = 0 ∨ r ≠ 0 then some ptr else none
  | munmap address _ => if r = 0 then some address else none
  | _ => none

/-- What the call obtained has to be recorded: a mapping always, a block from
    `limit` bytes on. -/
def wanted (limit : BitVec 32) (c : Call) : Prop := c.isMap ∨ limit.toNat ≤ c.bytes

instance (limit : BitVec 32) (c : Call) : Decidable (c.wanted limit) :=
  inferInstanceAs (Decidable (_ ∨ _))

/-- The mode of the call is on. -/
def watched (g : Configs) : Call → Bool
  | malloc _ | calloc .. | memalign .. | realloc .. => g.isPss
  | free _ => g.isVss || g.isPss
  | mmap .. | mmap64 .. | munmap .. => g.isVss
  | pthreadExit _ => false

theorem ne_exit {g : Configs} {c : Call} (h : c.watched g) (v : Word) : c ≠ pthreadExit v := by
  rintro rfl; simp [watched] at h

theorem released_passed {c : Call} {r a : Word} (h : c.released r = some a) :
    c.passed = some a := by
  cases c <;> simp only [released, passed, reduceCtorEq] at h ⊢ <;> (try split_ifs at h) <;> exact h

/-- Below 2^32 bytes no width of the size path loses anything. -/
theorem size_toNat {c : Call} {r : Word} (h : c.bytes < 2 ^ 32) (hr : c.obtains r) :
    c.size.toNat = c.bytes := by
  cases c with
  | calloc count bytes =>
    simp only [Call.bytes] at h
    simp only [size, Call.bytes, BitVec.toNat_setWidth, BitVec.toNat_mul]
    omega
  | free _ | munmap _ _ | pthreadExit _ => simp [obtains] at hr
  | _ => rfl

/-- The test of the proxies that store: a mapping always, a block if the byte
    count they see reaches the limit. -/
def passes (limit : BitVec 32) (c : Call) : Prop := c.isMap ∨ limit.setWidth 64 ≤ c.size

instance (limit : BitVec 32) (c : Call) : Decidable (c.passes limit) :=
  inferInstanceAs (Decidable (_ ∨ _))

theorem passes_iff {c : Call} {r : Word} (limit : BitVec 32) (h : c.bytes < 2 ^ 32)
    (hr : c.obtains r) : c.passes limit ↔ c.wanted limit := by
  have hl := limit.isLt
  rw [passes, wanted, BitVec.le_def, size_toNat h hr, BitVec.toNat_setWidth,
    Nat.mod_eq_of_lt (by omega)]

/-- The accesses to the table that drop the record of what the call released,
    and store one if `p`. -/
def effects (p : Prop) [Decidable p] (bt : Backtrace) (c : Call) (r : Word) : List Act :=
  (((c.released r).filter (· ≠ 0)).map Act.remove).toList ++ if p then [.insert r c.size bt] else []

/-- The accesses that a call which returned `r` should make: the record of what
    it released goes, what it obtained gets one. -/
def visible (limit : BitVec 32) (bt : Backtrace) (c : Call) (r : Word) : List Act :=
  c.effects (c.obtains r ∧ c.wanted limit) bt r

/-- The accesses that the proxy makes after its original returned `r`, if it
    found the guard 0. -/
def accesses (g : Configs) (bt : Backtrace) (c : Call) (r : Word) : List Act :=
  if c.tracked g false then c.acts g.limit bt r else []

/-- **The accesses of a proxy** whose mode is on. -/
theorem accesses_eq {g : Configs} {c : Call} {r : Word} (hc : c.watched g) (bt : Backtrace) :
    c.accesses g bt r = c.effects (c.obtains r ∧ c.passes g.limit) bt r := by
  unfold accesses acts effects
  cases c with
  | malloc _ | memalign _ _ | calloc _ _ =>
    simp only [watched] at hc
    by_cases hr : r = 0#64 <;>
      simp [tracked, drops, released, records, obtains, passes, isMap, Call.size, hc, hr]
  | realloc ptr size =>
    simp only [watched] at hc
    by_cases hr : r = 0#64
    · by_cases hp : ptr = 0#64 <;> by_cases hs : size = 0#64 <;>
        simp [tracked, drops, released, records, obtains, hc, hr, hp, hs, Option.filter]
    · by_cases hp : ptr = 0#64 <;>
        simp [tracked, drops, released, records, obtains, passes, isMap, Call.size, hc, hr, hp,
          Bool.cond_decide, Option.filter]
  | free address =>
    simp only [watched, Bool.or_eq_true] at hc
    by_cases ha : address = 0#64 <;>
      simp [tracked, drops, released, records, obtains, hc, ha, Option.filter]
  | munmap address size =>
    simp only [watched] at hc
    by_cases ha : address = 0#64 <;> by_cases hr : r = 0#64 <;>
      simp [tracked, drops, released, records, obtains, hc, ha, hr, Option.filter]
  | mmap | mmap64 =>
    simp only [watched] at hc
    by_cases hr : r = mapFailed <;>
      simp [tracked, drops, released, records, obtains, passes, isMap, hc, hr]
  | pthreadExit _ => simp [watched] at hc

/-- The accesses are the visible ones, if what was obtained has less than 2^32
    bytes. -/
theorem accesses_visible {g : Configs} {c : Call} {r : Word} (hc : c.watched g)
    (h : c.obtains r → c.bytes < 2 ^ 32) (bt : Backtrace) :
    c.accesses g bt r = c.visible g.limit bt r := by
  rw [accesses_eq hc]
  unfold visible effects
  congr 1
  by_cases hr : c.obtains r
  · simp only [hr, true_and, passes_iff g.limit (h hr) hr]
  · simp only [hr, false_and, if_false, Bool.false_eq_true]

end Call

/-! ## Live memory -/

section live
variable {β : Type}

/-- What stays live of `live` when the original `c` returns `r`. -/
def kept (live : Word → Option β) (c : Call) (r : Word) : Word → Option β :=
  fun a => if c.released r = some a then none else live a

/-- The live memory after the original `c` returned `r`, where it obtained `b`;
    nothing if an allocator or a kernel cannot return that: memory is handed out
    only where nothing is live. -/
def returned (live : Word → Option β) (c : Call) (r : Word) (b : β) : Option (Word → Option β) :=
  if c.obtains r then
    if r ≠ 0 ∧ (kept live c r r).isNone then some (Function.update (kept live c r) r (some b))
    else none
  else some (kept live c r)

theorem returned_eq {live live' : Word → Option β} {c : Call} {r : Word} {b : β}
    (h : returned live c r b = some live') :
    (∀ a, live' a = if c.obtains r ∧ a = r then some b else kept live c r a) ∧
      (c.obtains r → r ≠ 0 ∧ kept live c r r = none) := by
  unfold returned at h
  split_ifs at h with h₁ h₂ <;> cases h
  · refine ⟨fun a => ?_, fun _ => ⟨h₂.1, Option.isNone_iff_eq_none.1 h₂.2⟩⟩
    by_cases ha : a = r <;> simp [h₁, ha]
  · exact ⟨fun a => by simp [h₁], fun h => absurd h h₁⟩

section
variable {live live' : Word → Option β} {c : Call} {r a : Word} {b x : β}

/-- Nothing comes to live at NULL. -/
theorem returned_null (h : returned live c r b = some live') (h0 : live 0 = none) :
    live' 0 = none := by
  obtain ⟨hlive, hfresh⟩ := returned_eq h
  have hne : ¬ (c.obtains r ∧ (0 : Word) = r) := fun h => (hfresh h.1).1 h.2.symm
  rw [hlive, if_neg hne, kept, h0, ite_self]

/-- What was live and is not released stays as it is, and is not handed out. -/
theorem returned_keep (h : returned live c r b = some live') (ha : live a = some x)
    (hr : c.released r ≠ some a) : live' a = some x ∧ ¬ (c.obtains r ∧ a = r) := by
  obtain ⟨hlive, hfresh⟩ := returned_eq h
  have hk : kept live c r a = some x := by rw [kept, if_neg hr, ha]
  have hne : ¬ (c.obtains r ∧ a = r) := by
    rintro ⟨ho, rfl⟩
    rw [(hfresh ho).2] at hk
    cases hk
  exact ⟨by rw [hlive, if_neg hne, hk], hne⟩

/-- What is live is what the call obtained, or was live and is not released. -/
theorem returned_back (h : returned live c r b = some live') (ha : live' a = some x) :
    (c.obtains r ∧ a = r) ∧ x = b ∨ live a = some x ∧ c.released r ≠ some a := by
  rw [(returned_eq h).1, kept] at ha
  split_ifs at ha with h₁ h₂
  · exact Or.inl ⟨h₁, (Option.some.inj ha).symm⟩
  · exact Or.inr ⟨ha, h₂⟩

end

end live

end Raphael
