/-
  The inline hooks of whole-process sessions on arm64 (`registerInlineProxy`).

  Code is seen at the places where a call can be: the entries of the library's
  functions, the proxies, and the trampolines that `A64HookFunction` makes.  It
  is assumed of `A64HookFunction` that the trampoline behaves like the code
  found at the symbol, and that the symbol then jumps to the replacement.  The
  addresses of the second column of `sInline` are a parameter: a C library may
  have two of the names for one function (`mmap` and `mmap64` where `off_t` has
  64 bits).

  * `register_row`, `register_last`: what the registration of a list of rows
    leaves in a row's trampoline and at the entry patched last.
  * `start_astray`: where the trampoline of a row got the jump to a proxy.
  * `sessions_reach`: the hooked functions reach their original bodies after
    every start iff there is at most one, and its nine functions are different.
-/
import Raphael.Defs
import Raphael.Lib.Chain
import Mathlib.Data.List.Nodup

namespace Raphael

open Linked

namespace InlineHook

/-- The rows of `sInline`. -/
inductive Fn
  | malloc | calloc | realloc | memalign | free | mmap | mmap64 | munmap | pthreadExit
  deriving DecidableEq

/-- A place in the code. -/
inductive Loc
  /-- the entry of the library's function at `a` -/
  | entry (a : Word)
  /-- the third column of a row -/
  | proxy (f : Fn)
  | trampoline (i : ℕ)
  deriving DecidableEq

inductive Code
  /-- the body of the library's function at `a` -/
  | body (a : Word)
  | goto (l : Loc)
  /-- the body of a proxy, which calls `f_origin` -/
  | callOrigin (f : Fn)
  deriving DecidableEq

structure Image where
  /-- the second column of the table, as `invoke_je_free` leaves it -/
  symbol : Fn → Word
  code : Loc → Option Code
  /-- the pointers `*_origin`, the fourth column -/
  origin : Fn → Loc
  /-- how many trampolines are in use -/
  count : ℕ

def sInline : List Fn :=
  [.malloc, .calloc, .realloc, .memalign, .free, .mmap, .mmap64, .munmap, .pthreadExit]

namespace Image

/-- The process before the first session. -/
def initial (symbol : Fn → Word) : Image where
  symbol := symbol
  code
    | .entry a => some (.body a)
    | .proxy f => some (.callOrigin f)
    | .trampoline _ => none
  origin f := .entry (symbol f)
  count := 0

/-- `A64HookFunction(symbol, replace, &origin)` -/
def hookFunction (m : Image) (symbol replace : Loc) (result : Fn) : Image :=
  { m with
    code := Function.update (Function.update m.code (.trampoline m.count) (m.code symbol)) symbol
      (some (.goto replace))
    origin := Function.update m.origin result (.trampoline m.count)
    count := m.count + 1 }

/-- The row `f` is registered. -/
def registerRow (m : Image) (f : Fn) : Image :=
  m.hookFunction (.entry (m.symbol f)) (.proxy f) f

/-- The rows `fs` are registered one after another. -/
def register (m : Image) (fs : List Fn) : Image := fs.foldl registerRow m

def registerInlineProxy (m : Image) : Image := m.register sInline

/-- `Raphael::start(.., regex = null)` -/
def start (m : Image) : Image := m.registerInlineProxy

/-- `Raphael::stop`: the hooks stay. -/
def stop (m : Image) : Image := m

/-- The process after `n` sessions. -/
def cycles (symbol : Fn → Word) : ℕ → Image
  | 0 => initial symbol
  | n + 1 => (cycles symbol n).start.stop

/-! ## Calls -/

/-- Where the code at `l` goes next; a body returns. -/
def next (m : Image) (l : Loc) : Option Loc :=
  match m.code l with
  | some (.goto l') => some l'
  | some (.callOrigin f) => some (m.origin f)
  | _ => none

def isProxy : Loc → Bool
  | .proxy _ => true
  | _ => false

/-- A call of `f` ends and enters a proxy exactly once, its own; its `*_origin`
    leads to the original body and to no proxy. -/
structure Reaches (m : Image) (f : Fn) : Prop where
  once : ∃ l, Path m.next (some (.entry (m.symbol f))) l ∧ l.filter isProxy = [.proxy f]
  back : ∃ l x, Path m.next (some (m.origin f)) (l ++ [x]) ∧ (l ++ [x]).filter isProxy = [] ∧
    m.code x = some (.body (m.symbol f))

/-! ## Registration -/

section register
variable (m : Image) (f : Fn) {fs : List Fn} {a : Word}

theorem register_append (l₁ l₂ : List Fn) :
    m.register (l₁ ++ l₂) = (m.register l₁).register l₂ := List.foldl_append

@[simp] theorem register_symbol (fs : List Fn) : (m.register fs).symbol = m.symbol := by
  induction fs generalizing m with
  | nil => rfl
  | cons f fs ih => exact ih (m.registerRow f)

@[simp] theorem register_count (fs : List Fn) : (m.register fs).count = m.count + fs.length := by
  induction fs generalizing m with
  | nil => rfl
  | cons f fs ih =>
    refine (ih (m.registerRow f)).trans ?_
    simp only [registerRow, hookFunction, List.length_cons]
    omega

theorem register_proxy (fs : List Fn) : (m.register fs).code (.proxy f) = m.code (.proxy f) := by
  induction fs generalizing m with
  | nil => rfl
  | cons f' fs ih => exact (ih (m.registerRow f')).trans (by simp [registerRow, hookFunction])

theorem register_trampoline (fs : List Fn) {i : ℕ} (hi : i < m.count) :
    (m.register fs).code (.trampoline i) = m.code (.trampoline i) := by
  induction fs generalizing m with
  | nil => rfl
  | cons f' fs ih =>
    refine (ih (m.registerRow f') (Nat.lt_succ_of_lt hi)).trans ?_
    simp [registerRow, hookFunction, Nat.ne_of_lt hi]

theorem register_origin (h : f ∉ fs) : (m.register fs).origin f = m.origin f := by
  induction fs generalizing m with
  | nil => rfl
  | cons f' fs ih =>
    obtain ⟨hne, h⟩ := not_or.1 (mt List.mem_cons.2 h)
    refine (ih (m.registerRow f') h).trans ?_
    simp [registerRow, hookFunction, hne]

theorem register_entry (h : ∀ f ∈ fs, m.symbol f ≠ a) :
    (m.register fs).code (.entry a) = m.code (.entry a) := by
  induction fs generalizing m with
  | nil => rfl
  | cons f' fs ih =>
    obtain ⟨hne, h⟩ := List.forall_mem_cons.1 h
    refine (ih (m.registerRow f') h).trans ?_
    simp [registerRow, hookFunction, hne.symm]

/-- **The row `f`** gets a trampoline with the code that the rows before it left
    at its symbol. -/
theorem register_row (l₁ : List Fn) {l₂ : List Fn} (h : f ∉ l₂) :
    ∃ i, (m.register (l₁ ++ f :: l₂)).origin f = .trampoline i ∧
      (m.register (l₁ ++ f :: l₂)).code (.trampoline i) =
        (m.register l₁).code (.entry (m.symbol f)) := by
  have e : m.register (l₁ ++ f :: l₂) = ((m.register l₁).registerRow f).register l₂ :=
    m.register_append l₁ (f :: l₂)
  refine ⟨(m.register l₁).count, ?_, ?_⟩
  · rw [e, register_origin _ _ h]
    simp [registerRow, hookFunction]
  · rw [e, register_trampoline _ _ (by simp [registerRow, hookFunction])]
    simp [registerRow, hookFunction]

/-- The last row with an address has its proxy there. -/
theorem register_last (l₁ : List Fn) {l₂ : List Fn} (h : ∀ g ∈ l₂, m.symbol g ≠ m.symbol f) :
    (m.register (l₁ ++ f :: l₂)).code (.entry (m.symbol f)) = some (.goto (.proxy f)) := by
  have e : m.register (l₁ ++ f :: l₂) = ((m.register l₁).registerRow f).register l₂ :=
    m.register_append l₁ (f :: l₂)
  rw [e, register_entry _ (by simpa [registerRow, hookFunction] using h)]
  simp [registerRow, hookFunction]

/-- An entry that has a proxy, or that a row patches, has a proxy afterwards. -/
theorem register_patched
    (h : (∃ p, m.code (.entry a) = some (.goto (.proxy p))) ∨ ∃ f ∈ fs, m.symbol f = a) :
    ∃ p, (m.register fs).code (.entry a) = some (.goto (.proxy p)) := by
  induction fs generalizing m with
  | nil => simpa [register] using h
  | cons f' fs ih =>
    refine ih (m.registerRow f') ?_
    by_cases hf : m.symbol f' = a
    · exact Or.inl ⟨f', by simp [registerRow, hookFunction, hf]⟩
    · rcases h with ⟨p, hp⟩ | ⟨f, hmem, hfa⟩
      · exact Or.inl ⟨p, by simp [registerRow, hookFunction, Ne.symm hf, hp]⟩
      · rcases List.mem_cons.1 hmem with rfl | hmem
        exacts [absurd hfa hf, Or.inr ⟨f, hmem, hfa⟩]

end register

/-! ## Starts -/

theorem mem_sInline (f : Fn) : f ∈ sInline := by cases f <;> decide

/-- The rows around `f`. -/
theorem sInline_split (f : Fn) : ∃ l₁ l₂, sInline = l₁ ++ f :: l₂ ∧ f ∉ l₁ ∧ f ∉ l₂ := by
  obtain ⟨l₁, l₂, e⟩ := List.append_of_mem (mem_sInline f)
  have hn : sInline.Nodup := by decide
  rw [e, List.nodup_middle, List.nodup_cons, List.mem_append, not_or] at hn
  exact ⟨l₁, l₂, e, hn.1⟩

@[simp] theorem start_symbol (m : Image) : m.start.symbol = m.symbol := register_symbol m sInline

theorem start_proxy (m : Image) (f : Fn) : m.start.code (.proxy f) = m.code (.proxy f) :=
  register_proxy m f sInline

theorem start_entry (m : Image) (f : Fn) :
    ∃ p, m.start.code (.entry (m.symbol f)) = some (.goto (.proxy p)) :=
  register_patched m (Or.inr ⟨f, mem_sInline f, rfl⟩)

/-- After a start with different symbols: each jumps to its proxy, whose
    `*_origin` behaves like the code that was at the symbol before. -/
theorem start_spec {m : Image} (hinj : Function.Injective m.symbol) (f : Fn) :
    m.start.code (.entry (m.symbol f)) = some (.goto (.proxy f)) ∧
      ∃ i, m.start.origin f = .trampoline i ∧
        m.start.code (.trampoline i) = m.code (.entry (m.symbol f)) := by
  obtain ⟨l₁, l₂, e, h₁, h₂⟩ := sInline_split f
  have hne : ∀ {l : List Fn}, f ∉ l → ∀ g ∈ l, m.symbol g ≠ m.symbol f := by
    intro l h g hg hs
    exact h (hinj hs ▸ hg)
  rw [start, registerInlineProxy, e]
  refine ⟨m.register_last f l₁ (hne h₂), ?_⟩
  rw [← m.register_entry (hne h₁)]
  exact m.register_row f l₁ h₂

/-- The trampoline of `f` jumps to a proxy. -/
def Astray (m : Image) (f : Fn) : Prop :=
  ∃ i p, m.origin f = .trampoline i ∧ m.code (.trampoline i) = some (.goto (.proxy p))

/-- **A start leads `f` astray** where its symbol has been patched before, by an
    earlier start or by an earlier row. -/
theorem start_astray (m : Image) {l₁ l₂ : List Fn} {f : Fn} (e : sInline = l₁ ++ f :: l₂)
    (h : (∃ p, m.code (.entry (m.symbol f)) = some (.goto (.proxy p))) ∨
      ∃ g ∈ l₁, m.symbol g = m.symbol f) : m.start.Astray f := by
  have hn : sInline.Nodup := by decide
  rw [e, List.nodup_middle, List.nodup_cons, List.mem_append, not_or] at hn
  obtain ⟨p, hp⟩ := m.register_patched h
  obtain ⟨i, ho, ht⟩ := m.register_row f l₁ hn.1.2
  rw [start, registerInlineProxy, e]
  exact ⟨i, p, ho, ht.trans hp⟩

theorem Astray.not_reaches {m : Image} {f : Fn} (h : m.Astray f) : ¬ m.Reaches f := by
  rintro ⟨-, l, x, hp, hnone, hx⟩
  obtain ⟨i, p, ho, ht⟩ := h
  have hnext : m.next (.trampoline i) = some (.proxy p) := by simp only [next, ht]
  rw [ho] at hp
  rcases l with _ | ⟨y, _ | ⟨z, l⟩⟩
  · obtain ⟨⟨⟩, -⟩ := hp
    simp [ht] at hx
  · obtain ⟨⟨⟩, hp, -⟩ := hp
    rw [hnext] at hp
    cases hp
    simp [isProxy] at hnone
  · obtain ⟨⟨⟩, hp, -⟩ := hp
    rw [hnext] at hp
    cases hp
    simp [isProxy] at hnone

/-- Where all rows are led astray a call that enters a proxy never ends. -/
theorem endless {m : Image} (hproxy : ∀ f, m.code (.proxy f) = some (.callOrigin f))
    (h : ∀ f, m.Astray f) (f : Fn) (l : List Loc) : ¬ Path m.next (some (.proxy f)) l := by
  induction hn : l.length using Nat.strong_induction_on generalizing f l with
  | h n ih =>
    intro hl
    obtain ⟨i, p, ho, ht⟩ := h f
    obtain ⟨l₁, rfl, h₁⟩ := path_some.1 hl
    have hf : m.next (.proxy f) = some (.trampoline i) := by simp only [next, hproxy, ho]
    rw [hf] at h₁
    obtain ⟨l₂, rfl, h₂⟩ := path_some.1 h₁
    have hi : m.next (.trampoline i) = some (.proxy p) := by simp only [next, ht]
    rw [hi] at h₂
    exact ih l₂.length (by simp only [← hn, List.length_cons]; omega) p l₂ rfl h₂

/-! ## Sessions -/

section sessions
variable (symbol : Fn → Word)

@[simp] theorem cycles_symbol (n : ℕ) : (cycles symbol n).symbol = symbol := by
  induction n with
  | zero => rfl
  | succ n ih => exact (start_symbol (cycles symbol n)).trans ih

theorem cycles_proxy (f : Fn) (n : ℕ) :
    (cycles symbol n).code (.proxy f) = some (.callOrigin f) := by
  induction n with
  | zero => rfl
  | succ n ih => exact (start_proxy (cycles symbol n) f).trans ih

theorem first_start {symbol : Fn → Word} (hinj : Function.Injective symbol) (f : Fn) :
    (cycles symbol 0).start.Reaches f := by
  obtain ⟨hs, i, ho, ht⟩ := start_spec (m := cycles symbol 0) hinj f
  have hs' : (cycles symbol 0).start.next (.entry (symbol f)) = some (.proxy f) := by
    simp only [next, show (cycles symbol 0).start.code (.entry (symbol f)) = _ from hs]
  have hp' : (cycles symbol 0).start.next (.proxy f) = some (.trampoline i) := by
    simp only [next, start_proxy, cycles_proxy, ho]
  have ht' : (cycles symbol 0).start.next (.trampoline i) = none := by
    simp only [next, ht]; rfl
  have hsym : (cycles symbol 0).start.symbol = symbol := by simp
  refine ⟨⟨[.entry (symbol f), .proxy f, .trampoline i], ?_, rfl⟩, [], .trampoline i, ?_, rfl, ?_⟩
  · simp [hs', hp', ht']
  · simp [ho, ht']
  · rw [ht, hsym]; rfl

/-- Two names for one function: the row that comes later is led astray. -/
theorem first_start_alias {f g : Fn} (hne : f ≠ g) (h : symbol f = symbol g) :
    (cycles symbol 0).start.Astray f ∨ (cycles symbol 0).start.Astray g := by
  obtain ⟨l₁, l₂, e, -⟩ := sInline_split f
  have hg : g ∈ l₁ ∨ g ∈ l₂ := by
    have hmem := mem_sInline g
    rw [e, List.mem_append, List.mem_cons] at hmem
    exact hmem.imp_right fun h' => h'.resolve_left (Ne.symm hne)
  rcases hg with hg | hg
  · exact Or.inl (start_astray _ e (Or.inr ⟨g, hg, by simp [h]⟩))
  · obtain ⟨l₃, l₄, rfl⟩ := List.append_of_mem hg
    have hsplit : sInline = (l₁ ++ f :: l₃) ++ g :: l₄ := by rw [e]; simp
    exact Or.inr (start_astray _ hsplit (Or.inr ⟨f, by simp, by simp [h]⟩))

/-- From the second start on every row is led astray, -/
theorem later_start (n : ℕ) (f : Fn) : (cycles symbol (n + 1)).start.Astray f := by
  obtain ⟨l₁, l₂, e, -⟩ := sInline_split f
  refine start_astray _ e (Or.inl ?_)
  rw [cycles_symbol]
  have h := start_entry (cycles symbol n) f
  rwa [cycles_symbol] at h

/-- and no call of a hooked function ends. -/
theorem later_start_endless (n : ℕ) (f : Fn) (l : List Loc) :
    ¬ Path (cycles symbol (n + 1)).start.next (some (.entry (symbol f))) l := by
  intro hl
  obtain ⟨p, hp⟩ := start_entry (cycles symbol (n + 1)) f
  rw [cycles_symbol] at hp
  obtain ⟨l₁, rfl, h₁⟩ := path_some.1 hl
  have hf : (cycles symbol (n + 1)).start.next (.entry (symbol f)) = some (.proxy p) := by
    simp only [next, hp]
  rw [hf] at h₁
  exact endless (fun f => (start_proxy _ f).trans (cycles_proxy symbol f (n + 1)))
    (later_start symbol n) p l₁ h₁

end sessions

end Image

open Image

/-- **The hooked functions reach their original bodies** after each of `n`
    starts iff there is at most one, with nine different functions. -/
theorem sessions_reach (symbol : Fn → Word) (n : ℕ) :
    (∀ k < n, ∀ f, (cycles symbol k).start.Reaches f) ↔
      n = 0 ∨ n = 1 ∧ Function.Injective symbol := by
  constructor
  · intro h
    by_contra hn
    obtain ⟨hpos, hinj⟩ := not_or.1 hn
    by_cases h1 : n = 1
    · refine hinj ⟨h1, fun f g hfg => ?_⟩
      by_contra hne
      rcases first_start_alias symbol hne hfg with ha | ha
      · exact ha.not_reaches (h 0 (by omega) f)
      · exact ha.not_reaches (h 0 (by omega) g)
    · exact (later_start symbol 0 .malloc).not_reaches (h 1 (by omega) .malloc)
  · rintro (rfl | ⟨rfl, hinj⟩) k hk f
    · simp at hk
    · obtain rfl : k = 0 := by omega
      exact first_start hinj f

/-- Nine functions with their entries one page apart. -/
def apart : Fn → Word
  | .malloc => 0x1000
  | .calloc => 0x2000
  | .realloc => 0x3000
  | .memalign => 0x4000
  | .free => 0x5000
  | .mmap => 0x6000
  | .mmap64 => 0x7000
  | .munmap => 0x8000
  | .pthreadExit => 0x9000

theorem apart_injective : Function.Injective apart := by
  intro f g h
  cases f <;> cases g <;> first | rfl | exact absurd h (by decide)

theorem second_session_loops :
    Function.Injective apart ∧ (¬ ∀ n, ∀ k < n, ∀ f, (cycles apart k).start.Reaches f) ∧
      ∀ f l, ¬ Path (cycles apart 1).start.next (some (.entry (apart f))) l := by
  refine ⟨apart_injective, fun h => ?_, later_start_endless apart 0⟩
  exact (later_start apart 0 .malloc).not_reaches (h 2 1 (by decide) .malloc)

end InlineHook

end Raphael
