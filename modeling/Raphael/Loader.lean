/-
  Hooking the libraries that match a regex (PltGotHookProxy.h).

  The first pass looks at every loaded library and matches the regex on its full
  path.  Behind each `dlopen` the regex is matched on the name that was opened,
  and the first library that looks like it is hooked, and no other.

  The regex library and what the linker is found to export are parameters
  (`Platform`), and the originals that the dlopen entries held are left out.
  `xdl_iterate_phdr` visits every loaded library with its full path, in the
  order of the list, until the callback returns a value other than 0;
  `xh_elf_init` and `xh_elf_hook` succeed.

  * `register_spec`, `run_spec`: what the two passes hook.
  * `hooked_iff`: every eligible library stays hooked iff each `dlopen` brings
    in at most one such library, as the first hit for the name it was given.
-/
import Raphael.Defs
import Raphael.Lib.Lts
import Mathlib.Data.List.Infix

namespace Raphael

namespace Loader

/-! ## Names -/

/-- `is_so_name` -/
def isSoName (name : List Char) : Bool :=
  3 < name.length && name.drop (name.length - 3) = ['.', 's', 'o']

/-- `SO_SELF` -/
def soSelf : List Char := "libraphael.so".toList

/-- `SO_LIBDL` -/
def soLibdl : List Char := "libdl.so".toList

/-- `strstr(name, part) != NULL` -/
def strstr (name part : List Char) : Bool := part <:+: name

/-- `is_self_so` -/
def isSelfSo (name : List Char) : Bool := strstr name soSelf

/-- The loop of `pretty_name`: where the last slash before `index` ends. -/
def lastSlash (filename : List Char) : ℕ → ℕ
  | 0 => 0
  | index + 1 => if filename[index]? = some '/' then index + 1 else lastSlash filename index

/-- `pretty_name`: the last component, with the slash before it. -/
def prettyName (filename : List Char) : List Char :=
  if '/' ∈ filename then filename.drop (lastSlash filename filename.length - 1) else filename

/-! ## Libraries and hooks -/

/-- A loaded object, as `xdl_iterate_phdr` reports it. -/
structure Library where
  path : List Char
  base : Word
  /-- nothing is loaded at the address 0 -/
  mapped : base ≠ 0
  /-- the path is the full one -/
  full : ['.', 's', 'o'] <:+ path → 3 < path.length
  deriving DecidableEq

structure Platform where
  /-- `android_get_device_api_level` -/
  apiLevel : ℕ
  /-- `regcomp`: how `regexec` decides for the compiled pattern; `none` if it
      does not compile -/
  regcomp : List Char → Option (List Char → Bool)
  /-- `g_dl_mutex` and `dlopen_ext_N` are found in the linker -/
  linkerSymbols : Bool

/-- The static variables, and the libraries whose entries are hooked. -/
structure Hooks where
  useRegex : Bool
  focusedRegex : List Char → Bool
  isHookLibdlSuccess : Bool
  /-- the libraries with hooked allocator entries -/
  allocs : List Library
  /-- the libraries with hooked dlopen entries -/
  loads : List Library

/-- Before anything is registered. -/
def Hooks.none : Hooks := ⟨false, fun _ => false, false, [], []⟩

/-- `!use_regex || regexec(&focused_regex, name, ..) == 0` -/
def Hooks.accepts (st : Hooks) (name : List Char) : Bool := !st.useRegex || st.focusedRegex name

/-- `tryHookAllFunc` -/
def tryHookAllFunc (st : Hooks) (lib : Library) : Hooks := { st with allocs := lib :: st.allocs }

/-- `tryHookSoLoadFunc` -/
def tryHookSoLoadFunc (env : Platform) (st : Hooks) (lib : Library) : Hooks :=
  if 26 ≤ env.apiLevel then
    if !st.isHookLibdlSuccess && strstr lib.path soLibdl then
      { st with loads := lib :: st.loads, isHookLibdlSuccess := true }
    else st
  else if 24 ≤ env.apiLevel then
    if env.linkerSymbols then { st with loads := lib :: st.loads } else st
  else { st with loads := lib :: st.loads }

/-! ## Callbacks -/

/-- `default_callback` -/
def defaultCallback (env : Platform) (st : Hooks) (lib : Library) : Hooks × Bool :=
  let st := if st.accepts lib.path then tryHookAllFunc st lib else st
  (tryHookSoLoadFunc env st lib, false)

/-- The test of `so_load_callback`. -/
def looksLike (name : List Char) (lib : Library) : Bool :=
  strstr lib.path name || strstr name lib.path

/-- `so_load_callback`, for the pretty name `name` -/
def soLoadCallback (env : Platform) (name : List Char) (st : Hooks) (lib : Library) :
    Hooks × Bool :=
  if looksLike name lib then (tryHookSoLoadFunc env (tryHookAllFunc st lib) lib, true)
  else (st, false)

/-- `common_callback`, where `data` is the name of a `so_load_data` -/
def commonCallback (env : Platform) (data : Option (List Char)) (st : Hooks) (lib : Library) :
    Hooks × Bool :=
  if lib.base = 0 then (st, false)
  else if !isSoName lib.path then (st, false)
  else if isSelfSo lib.path then (st, false)
  else
    match data with
    | none => defaultCallback env st lib
    | some name => soLoadCallback env name st lib

/-- `xdl_iterate_phdr` -/
def iterate (callback : Hooks → Library → Hooks × Bool) : Hooks → List Library → Hooks
  | st, [] => st
  | st, lib :: libs =>
    match callback st lib with
    | (st, true) => st
    | (st, false) => iterate callback st libs

/-- `try_pltgot_hook_on_soload`, where a name `NULL` is `none` -/
def tryPltgotHookOnSoload (env : Platform) (st : Hooks) (libs : List Library) :
    Option (List Char) → Hooks
  | none => st
  | some filename =>
    if isSoName filename && st.accepts filename then
      iterate (commonCallback env (some (prettyName filename))) st libs
    else st

/-- `registerSoLoadProxy` -/
def registerSoLoadProxy (env : Platform) (st : Hooks) (libs : List Library)
    (focused : Option (List Char)) : Hooks :=
  let st :=
    match focused.map env.regcomp with
    | none => st
    | some none => { st with useRegex := false }
    | some (some regex) => { st with useRegex := true, focusedRegex := regex }
  iterate (commonCallback env none) st libs

/-! ## Proxies of dlopen -/

/-- The body of the proxies: `opened` says that the original succeeded, and
    `again` that `dlopen_ext_N` did after it. -/
def loadProxy (env : Platform) (st : Hooks) (libs : List Library) (filename : Option (List Char))
    (opened again : Bool) : Hooks :=
  if opened || again then tryPltgotHookOnSoload env st libs filename else st

/-- The five proxies; those for the API level N call `dlopen_ext_N` if the
    original fails. -/
inductive Proxy
  | dlopenO
  | dlopenN
  | dlopen
  | androidDlopenO
  | androidDlopenN
  deriving DecidableEq

def Proxy.retries : Proxy → Bool
  | dlopenN | androidDlopenN => true
  | dlopenO | dlopen | androidDlopenO => false

/-- `dlopen_proxy_O`, `dlopen_proxy_N`, `dlopen_proxy`, `android_dlopen_proxy_O` and
    `android_dlopen_proxy_N`: the results of the original and of `dlopen_ext_N` -/
def Proxy.run (p : Proxy) (env : Platform) (st : Hooks) (libs : List Library)
    (filename : Option (List Char)) (opened again : Bool) : Hooks :=
  loadProxy env st libs filename opened (p.retries && !opened && again)

/-! ## What the passes hook -/

/-- The library is looked at by the callbacks. -/
def candidate (lib : Library) : Bool := isSoName lib.path && !isSelfSo lib.path

/-- `so_load_callback` is called for the library and takes it for `name`. -/
def hits (name : List Char) (lib : Library) : Bool := candidate lib && looksLike name lib

/-- The first library that the search behind `dlopen` takes for `name`. -/
def firstHit (name : List Char) (libs : List Library) : Option Library := libs.find? (hits name)

section passes
variable {env : Platform} {st : Hooks} {lib : Library} {libs : List Library}

@[simp] theorem tryHookSoLoadFunc_allocs :
    (tryHookSoLoadFunc env st lib).allocs = st.allocs := by
  unfold tryHookSoLoadFunc
  split_ifs <;> rfl

@[simp] theorem tryHookSoLoadFunc_accepts (name : List Char) :
    (tryHookSoLoadFunc env st lib).accepts name = st.accepts name := by
  unfold tryHookSoLoadFunc
  split_ifs <;> rfl

@[simp] theorem tryHookAllFunc_allocs : (tryHookAllFunc st lib).allocs = lib :: st.allocs := rfl

@[simp] theorem tryHookAllFunc_accepts (name : List Char) :
    (tryHookAllFunc st lib).accepts name = st.accepts name := rfl

/-- Both callbacks skip what is no candidate. -/
theorem commonCallback_eq (data : Option (List Char)) :
    commonCallback env data st lib = if candidate lib then
      match data with
      | none => defaultCallback env st lib
      | some name => soLoadCallback env name st lib
    else (st, false) := by
  unfold commonCallback candidate
  rw [if_neg lib.mapped]
  cases isSoName lib.path <;> cases isSelfSo lib.path <;> rfl

/-- What `default_callback` does. -/
theorem default_step : (commonCallback env none st lib).2 = false ∧
    (∀ name, (commonCallback env none st lib).1.accepts name = st.accepts name) ∧
    ∀ l, l ∈ (commonCallback env none st lib).1.allocs ↔
      l ∈ st.allocs ∨ l = lib ∧ candidate lib ∧ st.accepts lib.path := by
  rw [commonCallback_eq]
  by_cases hc : candidate lib
  · by_cases ha : st.accepts lib.path
    · simp [hc, ha, defaultCallback, or_comm]
    · simp [hc, ha, defaultCallback]
  · simp [hc]

/-- **The first pass** hooks every candidate whose path is accepted. -/
theorem iterate_default :
    (∀ n, (iterate (commonCallback env none) st libs).accepts n = st.accepts n) ∧
    ∀ l, l ∈ (iterate (commonCallback env none) st libs).allocs ↔
      l ∈ st.allocs ∨ l ∈ libs ∧ candidate l ∧ st.accepts l.path := by
  induction libs generalizing st with
  | nil => simp [iterate]
  | cons lib libs ih =>
    obtain ⟨hret, hacc, hmem⟩ := @default_step env st lib
    rw [iterate]
    split
    · next st' e => simp [e] at hret
    · next st' e =>
      rw [e] at hacc hmem
      obtain ⟨ihacc, ihmem⟩ := @ih st'
      refine ⟨fun n => (ihacc n).trans (hacc n), fun l => ?_⟩
      rw [ihmem, hmem, hacc, List.mem_cons]
      constructor
      · rintro ((h | ⟨rfl, h⟩) | ⟨hl, h⟩)
        · exact Or.inl h
        · exact Or.inr ⟨Or.inl rfl, h⟩
        · exact Or.inr ⟨Or.inr hl, h⟩
      · rintro (h | ⟨rfl | hl, h⟩)
        · exact Or.inl (Or.inl h)
        · exact Or.inl (Or.inr ⟨rfl, h⟩)
        · exact Or.inr ⟨hl, h⟩

/-- **The pass behind `dlopen`** hooks the first hit. -/
theorem iterate_soload (name : List Char) :
    (∀ n, (iterate (commonCallback env (some name)) st libs).accepts n = st.accepts n) ∧
    ∀ l, l ∈ (iterate (commonCallback env (some name)) st libs).allocs ↔
      l ∈ st.allocs ∨ firstHit name libs = some l := by
  induction libs with
  | nil => simp [iterate, firstHit]
  | cons lib libs ih =>
    have hcall : commonCallback env (some name) st lib =
        if hits name lib then (tryHookSoLoadFunc env (tryHookAllFunc st lib) lib, true)
        else (st, false) := by
      rw [commonCallback_eq, hits]
      cases candidate lib <;> rfl
    rw [iterate, hcall, firstHit, List.find?_cons]
    cases hh : hits name lib with
    | true => simp [or_comm, eq_comm]
    | false => exact ih

/-- The regex decides for the statics. -/
def Hooks.Uses (st : Hooks) (regex : List Char → Bool) : Prop := ∀ name, st.accepts name = regex name

theorem register_spec {pattern : List Char} {regex : List Char → Bool}
    (hc : env.regcomp pattern = some regex) :
    (registerSoLoadProxy env st libs (some pattern)).Uses regex ∧
    ∀ l, l ∈ (registerSoLoadProxy env st libs (some pattern)).allocs ↔
      l ∈ st.allocs ∨ l ∈ libs ∧ candidate l ∧ regex l.path := by
  have hregex : ∀ name, ({ st with useRegex := true, focusedRegex := regex } : Hooks).accepts name =
      regex name := fun name => by simp [Hooks.accepts]
  simp only [registerSoLoadProxy, Option.map_some, hc]
  obtain ⟨hacc, hmem⟩ := @iterate_default env { st with useRegex := true, focusedRegex := regex } libs
  refine ⟨fun name => (hacc name).trans (hregex name), fun l => ?_⟩
  rw [hmem, hregex]

/-- **Behind a successful call** at most one library is hooked: the first hit for
    a name that the regex accepts. -/
theorem run_spec {p : Proxy} {filename : Option (List Char)} {opened again : Bool}
    (hopen : opened || p.retries && again) :
    (∀ n, (p.run env st libs filename opened again).accepts n = st.accepts n) ∧
    ∀ l, l ∈ (p.run env st libs filename opened again).allocs ↔ l ∈ st.allocs ∨
      ∃ name, filename = some name ∧ isSoName name ∧ st.accepts name ∧
        firstHit (prettyName name) libs = some l := by
  have hrun : p.run env st libs filename opened again = tryPltgotHookOnSoload env st libs filename := by
    rw [Proxy.run, loadProxy, if_pos]
    cases opened
    · simpa using hopen
    · rfl
  rw [hrun]
  cases filename with
  | none => simp [tryPltgotHookOnSoload]
  | some name =>
    rw [tryPltgotHookOnSoload]
    by_cases hn : isSoName name && st.accepts name
    · obtain ⟨hacc, hmem⟩ := @iterate_soload env st libs (prettyName name)
      rw [Bool.and_eq_true] at hn
      simp [hn.1, hn.2, hacc, hmem]
    · rw [if_neg hn]
      simp only [Bool.and_eq_true] at hn
      refine ⟨fun _ => rfl, fun l => ⟨Or.inl, ?_⟩⟩
      rintro (h | ⟨w, hw, h₁, h₂, -⟩)
      · exact h
      · obtain rfl := Option.some.inj hw
        exact absurd ⟨h₁, h₂⟩ hn

end passes

/-! ## Loading -/

/-- The hooks, and the loaded libraries in the order of the linker. -/
structure Process where
  hooks : Hooks
  loaded : List Library

/-- A call through a proxy of dlopen, and what is loaded after it. -/
structure Open where
  proxy : Proxy
  filename : Option (List Char)
  opened : Bool
  again : Bool
  loaded : List Library

/-- The call succeeded. -/
def Open.succeeded (o : Open) : Bool := o.opened || o.proxy.retries && o.again

/-- A successful call; nothing is unloaded. -/
def step (env : Platform) (s : Process) (o : Open) : Option Process :=
  if o.succeeded && s.loaded.all (· ∈ o.loaded) then
    some ⟨o.proxy.run env s.hooks o.loaded o.filename o.opened o.again, o.loaded⟩
  else none

/-- The process after `registerSoLoadProxy`. -/
def Process.register (env : Platform) (s : Process) (pattern : List Char) : Process :=
  ⟨registerSoLoadProxy env s.hooks s.loaded (some pattern), s.loaded⟩

/-- The library is to be hooked. -/
structure Eligible (regex : List Char → Bool) (l : Library) : Prop where
  so : ['.', 's', 'o'] <:+ l.path
  other : ¬ soSelf <:+: l.path
  focused : regex l.path

/-- Every eligible library is hooked. -/
def Covered (regex : List Char → Bool) (s : Process) : Prop :=
  ∀ l ∈ s.loaded, Eligible regex l → l ∈ s.hooks.allocs

/-- Each eligible library that the call brings in is the first hit for the name
    it was given, and that name ends in .so and matches, too. -/
def Caught (regex : List Char → Bool) (s : Process) (o : Open) : Prop :=
  ∀ l ∈ o.loaded, l ∉ s.loaded → Eligible regex l →
    ∃ name, o.filename = some name ∧ isSoName name ∧ regex name ∧
      firstHit (prettyName name) o.loaded = some l

section runs
variable {env : Platform} {regex : List Char → Bool} {s s' : Process} {o : Open}

theorem isSoName_iff (l : Library) : isSoName l.path ↔ ['.', 's', 'o'] <:+ l.path := by
  simp only [isSoName, Bool.and_eq_true, decide_eq_true_eq]
  constructor
  · rintro ⟨-, h⟩
    exact h ▸ List.drop_suffix _ _
  · intro h
    refine ⟨l.full h, ?_⟩
    obtain ⟨t, ht⟩ := h
    rw [← ht]
    simp

theorem eligible_iff (l : Library) : Eligible regex l ↔ candidate l ∧ regex l.path := by
  have hself : isSelfSo l.path = false ↔ ¬ soSelf <:+: l.path := by simp [isSelfSo, strstr]
  rw [candidate, Bool.and_eq_true, Bool.not_eq_true', isSoName_iff, hself, and_assoc]
  exact ⟨fun h => ⟨h.so, h.other, h.focused⟩, fun h => ⟨h.1, h.2.1, h.2.2⟩⟩

/-- What holds between the calls. -/
structure Inv (regex : List Char → Bool) (s : Process) : Prop where
  uses : s.hooks.Uses regex
  hooked : ∀ l ∈ s.hooks.allocs, l ∈ s.loaded

theorem register_inv {pattern : List Char} (hc : env.regcomp pattern = some regex)
    (hs : ∀ l ∈ s.hooks.allocs, l ∈ s.loaded) :
    Inv regex (s.register env pattern) ∧ Covered regex (s.register env pattern) := by
  obtain ⟨huses, hmem⟩ := @register_spec env s.hooks s.loaded pattern regex hc
  refine ⟨⟨huses, fun l hl => ?_⟩, fun l hl he => ?_⟩
  · rcases (hmem l).1 hl with h | h
    · exact hs l h
    · exact h.1
  · exact (hmem l).2 (Or.inr ⟨hl, (eligible_iff l).1 he⟩)

/-- **One call** keeps everything eligible hooked iff it is `Caught`. -/
theorem step_spec (hi : Inv regex s) (hp : Covered regex s) (e : step env s o = some s') :
    Inv regex s' ∧ (Covered regex s' ↔ Caught regex s o) := by
  unfold step at e
  split_ifs at e with hok
  obtain rfl := Option.some.inj e
  rw [Bool.and_eq_true, List.all_eq_true] at hok
  obtain ⟨hopen, hloaded⟩ := hok
  obtain ⟨hacc, hmem⟩ := @run_spec env s.hooks o.loaded o.proxy o.filename o.opened o.again hopen
  have hmem : ∀ l, l ∈ (o.proxy.run env s.hooks o.loaded o.filename o.opened o.again).allocs ↔
      l ∈ s.hooks.allocs ∨ ∃ name, o.filename = some name ∧ isSoName name ∧ regex name ∧
        firstHit (prettyName name) o.loaded = some l := by
    simpa only [hi.uses _] using hmem
  have hkept : ∀ l ∈ s.loaded, l ∈ o.loaded := fun l hl => by simpa using hloaded l hl
  refine ⟨⟨fun name => (hacc name).trans (hi.uses name), fun l hl => ?_⟩, ?_⟩
  · rcases (hmem l).1 hl with h | ⟨name, -, -, -, h⟩
    · exact hkept l (hi.hooked l h)
    · exact List.mem_of_find?_eq_some h
  constructor
  · intro h l hl hnew he
    rcases (hmem l).1 (h l hl he) with h | h
    · exact absurd (hi.hooked l h) hnew
    · exact h
  · intro h l hl he
    by_cases hold : l ∈ s.loaded
    · exact (hmem l).2 (Or.inl (hp l hold he))
    · exact (hmem l).2 (Or.inr (h l hl hold he))

/-- **Every eligible library stays hooked**, in all states of exactly those runs
    whose calls are all `Caught`. -/
theorem hooked_iff {pattern : List Char} (hc : env.regcomp pattern = some regex)
    (hs : ∀ l ∈ s.hooks.allocs, l ∈ s.loaded) {opens : List Open}
    (h : Lts.run (step env) (s.register env pattern) opens = some s') :
    (∀ opens₁ s₁, opens₁ <+: opens →
        Lts.run (step env) (s.register env pattern) opens₁ = some s₁ → Covered regex s₁) ↔
      Lts.Along (step env) (Caught regex) (s.register env pattern) opens := by
  obtain ⟨hi, hp⟩ := register_inv hc hs
  exact Lts.along_iff (fun _ _ _ hi hp e => step_spec hi hp e) hi hp h

end runs

/-! ## A library and what it needs -/

/-- A device of the API level 29, and the pattern `.*`. -/
def device : Platform := ⟨29, fun _ => some fun _ => true, false⟩

/-- `/a.so` -/
def libA : Library := ⟨['/', 'a', '.', 's', 'o'], 0x1000, by decide, by decide⟩

/-- `/b.so` -/
def libB : Library := ⟨['/', 'b', '.', 's', 'o'], 0x2000, by decide, by decide⟩

/-- A process with no libraries of its own. -/
def fresh : Process := ⟨.none, []⟩

/-- `dlopen("b.so")`, where nothing else is loaded. -/
def openB : Open := ⟨.dlopenO, some ['b', '.', 's', 'o'], true, false, [libB]⟩

/-- `dlopen("a.so")`, where a.so needs b.so, and that is loaded. -/
def openA : Open := ⟨.dlopenO, some ['a', '.', 's', 'o'], true, false, [libB, libA]⟩

/-- `dlopen("a.so")`, where b.so comes in behind it. -/
def openAB : Open := { openA with loaded := [libA, libB] }

theorem hooked_openBA : ∃ s, Lts.run (step device) (fresh.register device ['.', '*']) [openB, openA] =
    some s ∧ Covered (fun _ => true) s ∧ s.loaded = [libB, libA] := by
  have hfresh : ∀ l ∈ fresh.hooks.allocs, l ∈ fresh.loaded := fun l hl => hl
  have hcaught : Lts.Along (step device) (Caught fun _ => true) (fresh.register device ['.', '*'])
      [openB, openA] := by
    refine ⟨fun l hl _ _ => ⟨_, rfl, by decide, rfl, ?_⟩, ?_⟩
    · obtain rfl := List.mem_singleton.1 hl
      decide
    rintro s ⟨⟩
    refine ⟨fun l hl hnew _ => ⟨_, rfl, by decide, rfl, ?_⟩, fun _ _ => trivial⟩
    rcases List.mem_pair.1 hl with rfl | rfl
    · exact absurd List.mem_cons_self hnew
    · decide
  exact ⟨_, rfl, (hooked_iff rfl hfresh rfl).2 hcaught [openB, openA] _ (List.prefix_refl _) rfl, rfl⟩

/-- **What a library needs is missed.** -/
theorem missed_openAB : ¬ ∀ opens s,
    Lts.run (step device) (fresh.register device ['.', '*']) opens = some s →
      Covered (fun _ => true) s := by
  intro h
  have hb := h [openAB] _ rfl libB (by decide) ⟨by decide, by decide, rfl⟩
  exact absurd hb (by decide)

end Loader

end Raphael
