/-
  The library that is hooked behind a `dlopen` (PltGotHookProxy.h): the one that
  was opened, or another one in its place.

  The search knows the opened name, cut down to its last component, and takes the
  first library whose path contains it or is contained in it.  The functions are
  those of the loader once more, with an `xh_elf_init` that may fail; where it
  never does they are the same (`tryPltgotHookOnSoload_eq`).

  * `opened_iff`: no other library is hooked iff none that the search comes to
    first looks like the name (or the first one that does cannot be read).
-/
import Raphael.Loader

namespace Raphael

namespace Opened

open Loader

/-! ## The search -/

/-- `so_load_callback`, for the pretty name `name`; `init` says for which
    libraries `xh_elf_init` returns 0 -/
def soLoadCallback (env : Platform) (init : Library → Bool) (name : List Char) (st : Hooks)
    (lib : Library) : Hooks × Bool :=
  if looksLike name lib then
    if init lib then (tryHookSoLoadFunc env (tryHookAllFunc st lib) lib, true) else (st, true)
  else (st, false)

/-- `common_callback` with a `so_load_data` -/
def commonCallback (env : Platform) (init : Library → Bool) (name : List Char) (st : Hooks)
    (lib : Library) : Hooks × Bool :=
  if lib.base = 0 then (st, false)
  else if !isSoName lib.path then (st, false)
  else if isSelfSo lib.path then (st, false)
  else soLoadCallback env init name st lib

/-- `try_pltgot_hook_on_soload` -/
def tryPltgotHookOnSoload (env : Platform) (init : Library → Bool) (st : Hooks)
    (libs : List Library) (filename : List Char) : Hooks :=
  if isSoName filename && st.accepts filename then
    iterate (commonCallback env init (prettyName filename)) st libs
  else st

/-- Where `xh_elf_init` succeeds these are the functions of the loader. -/
theorem tryPltgotHookOnSoload_eq (env : Platform) (st : Hooks) (libs : List Library)
    (filename : List Char) : tryPltgotHookOnSoload env (fun _ => true) st libs filename =
      Loader.tryPltgotHookOnSoload env st libs (some filename) := rfl

section search
variable {env : Platform} {init : Library → Bool} {st : Hooks} {lib : Library}
  {libs : List Library} {name : List Char}

theorem commonCallback_eq : commonCallback env init name st lib =
    if hits name lib then
      if init lib then (tryHookSoLoadFunc env (tryHookAllFunc st lib) lib, true) else (st, true)
    else (st, false) := by
  unfold commonCallback hits candidate
  rw [if_neg lib.mapped]
  cases isSoName lib.path <;> cases isSelfSo lib.path <;> rfl

/-- **The first hit is hooked**, if it can be read, and nothing else. -/
theorem iterate_allocs : (iterate (commonCallback env init name) st libs).allocs =
    ((firstHit name libs).filter init).toList ++ st.allocs := by
  induction libs with
  | nil => rfl
  | cons lib libs ih =>
    rw [iterate, commonCallback_eq, firstHit, List.find?_cons]
    cases hh : hits name lib with
    | false => exact ih
    | true => cases hi : init lib <;> simp [Option.filter, hi]

/-- The library that is hooked behind a name. -/
theorem hooks_iff (l : Library) :
    (tryPltgotHookOnSoload env init st libs name).allocs = l :: st.allocs ↔
      isSoName name ∧ st.accepts name ∧ firstHit (prettyName name) libs = some l ∧ init l := by
  have hcons : ∀ o : Option Library, o.toList ++ st.allocs = l :: st.allocs ↔ o = some l := by
    intro o
    cases o <;> simp
  unfold tryPltgotHookOnSoload
  by_cases hn : isSoName name && st.accepts name
  · rw [if_pos hn, iterate_allocs, hcons, Option.filter_eq_some_iff]
    rw [Bool.and_eq_true] at hn
    simp [hn.1, hn.2]
  · rw [if_neg hn]
    rw [Bool.and_eq_true] at hn
    refine iff_of_false (fun h => ?_) fun h => hn ⟨h.1, h.2.1⟩
    simpa using congrArg List.length h

end search

/-! ## Names -/

/-- `dlopen` may have opened the library under this name: its full path, or its
    file name. -/
def OpenedAs (lib : Library) (name : List Char) : Prop :=
  name = lib.path ∨ '/' ∉ name ∧ '/' :: name <:+ lib.path

section names
variable {lib : Library} {name : List Char}

theorem prettyName_suffix (name : List Char) : prettyName name <:+ name := by
  unfold prettyName
  split
  · exact List.drop_suffix _ _
  · exact List.suffix_refl _

theorem OpenedAs.suffix (h : OpenedAs lib name) : name <:+ lib.path := by
  rcases h with rfl | ⟨-, h⟩
  · exact List.suffix_refl _
  · exact (List.suffix_cons _ _).trans h

theorem OpenedAs.isSoName (h : OpenedAs lib name) (hso : isSoName name) : isSoName lib.path := by
  rw [Loader.isSoName, Bool.and_eq_true, decide_eq_true_eq, decide_eq_true_eq] at hso
  exact (isSoName_iff lib).2 ((hso.2 ▸ List.drop_suffix _ _).trans h.suffix)

/-- A library looks like the names it is opened under. -/
theorem OpenedAs.hits (h : OpenedAs lib name) (hc : candidate lib) :
    Loader.hits (prettyName name) lib := by
  have hpretty : prettyName name <:+: lib.path :=
    ((prettyName_suffix name).trans h.suffix).isInfix
  rw [Loader.hits, hc, looksLike, strstr, decide_eq_true hpretty]
  rfl

end names

/-! ## The first hit -/

/-- The libraries that the search comes to before `lib`; it never takes
    libraphael.so. -/
def before (libs : List Library) (lib : Library) : List Library :=
  if isSelfSo lib.path then libs else libs.takeWhile (· ≠ lib)

/-- Behind the opened name no library but `lib` is hooked. -/
def OnlyOpened (env : Platform) (init : Library → Bool) (st : Hooks) (libs : List Library)
    (lib : Library) (name : List Char) : Prop :=
  ∀ l, (tryPltgotHookOnSoload env init st libs name).allocs = l :: st.allocs → l = lib

section opened
variable {env : Platform} {init : Library → Bool} {st : Hooks} {libs : List Library}
  {lib l : Library} {name : List Char}

/-- Another one than `x` is found iff it is found before `x`. -/
theorem find?_before {p : Library → Bool} {x : Library} (hx : p x) :
    libs.find? p = some l ∧ l ≠ x ↔ (libs.takeWhile (· ≠ x)).find? p = some l := by
  induction libs with
  | nil => simp
  | cons y libs ih =>
    by_cases hy : y = x
    · subst hy
      rw [List.find?_cons_of_pos hx, List.takeWhile_cons_of_neg (by simp)]
      simp [eq_comm]
    · rw [List.takeWhile_cons_of_pos (by simpa using hy), List.find?_cons, List.find?_cons]
      cases p y with
      | true =>
        refine ⟨And.left, fun h => ⟨h, ?_⟩⟩
        cases h
        exact hy
      | false => exact ih

/-- Another library is the first hit iff it is the first one before `lib`. -/
theorem firstHit_ne (h : OpenedAs lib name) (hso : isSoName name) :
    firstHit (prettyName name) libs = some l ∧ l ≠ lib ↔
      (before libs lib).find? (hits (prettyName name)) = some l := by
  unfold before firstHit
  by_cases hself : isSelfSo lib.path
  · rw [if_pos hself]
    refine ⟨And.left, fun hl => ⟨hl, ?_⟩⟩
    -- the search passes over `lib`
    rintro rfl
    have := List.find?_some hl
    simp [hits, candidate, hself] at this
  · rw [if_neg hself]
    have hc : candidate lib := by
      rw [candidate, h.isSoName hso, Bool.eq_false_iff.2 hself]
      rfl
    exact find?_before (h.hits hc)

/-- **Only the opened library is hooked** iff none that the search comes to first
    looks like the name, or the first that does cannot be read. -/
theorem opened_iff (h : OpenedAs lib name) : OnlyOpened env init st libs lib name ↔
    (isSoName name → st.accepts name →
      ∀ l, (before libs lib).find? (hits (prettyName name)) = some l → init l = false) := by
  constructor
  · intro honly hso hacc l hl
    obtain ⟨hfirst, hne⟩ := (firstHit_ne h hso).2 hl
    by_contra hi
    exact hne (honly l ((hooks_iff l).2 ⟨hso, hacc, hfirst, by simpa using hi⟩))
  · intro hall l hl
    obtain ⟨hso, hacc, hfirst, hi⟩ := (hooks_iff l).1 hl
    by_contra hne
    rw [hall hso hacc l ((firstHit_ne h hso).1 ⟨hfirst, hne⟩)] at hi
    cases hi

end opened

/-! ## One file name in two directories -/

/-- `/a/x.so` -/
def libAX : Library := ⟨['/', 'a', '/', 'x', '.', 's', 'o'], 0x3000, by decide, by decide⟩

/-- `/b/x.so` -/
def libBX : Library := ⟨['/', 'b', '/', 'x', '.', 's', 'o'], 0x4000, by decide, by decide⟩

/-- The hooks after the registration with the pattern `.*`. -/
def registered : Hooks := registerSoLoadProxy device .none [] (some ['.', '*'])

theorem opened_libAX :
    OnlyOpened device (fun _ => true) registered [libAX, libBX] libAX libAX.path := by
  refine (opened_iff (Or.inl rfl)).2 fun _ _ l hl => ?_
  have hnone : (before [libAX, libBX] libAX).find? (hits (prettyName libAX.path)) = none := by decide
  rw [hnone] at hl
  cases hl

/-- **The library with the same file name in front** is hooked in its place. -/
theorem opened_libBX : ¬ ∀ (libs : List Library) (lib : Library) (name : List Char),
    (libs.map Library.path).Nodup → lib ∈ libs → OpenedAs lib name → ['.', 's', 'o'] <:+ name →
      registered.accepts name → OnlyOpened device (fun _ => true) registered libs lib name := by
  intro h
  have honly := h [libAX, libBX] libBX libBX.path (by decide) (by decide) (Or.inl rfl) (by decide) rfl
  have hhooked : (tryPltgotHookOnSoload device (fun _ => true) registered [libAX, libBX]
      libBX.path).allocs = libAX :: registered.allocs := by decide
  exact absurd (honly libAX hhooked) (by decide)

end Opened

end Raphael
