/-
  Symbols by name, through the hash tables of an ELF file (xh_elf.c, xdl.c).

  `.hash` chains the symbols of a bucket through their indices.  `.gnu.hash`
  sorts the defined symbols by bucket, marks the last one of each bucket, and
  keeps a bloom filter of all names.

  * `SysvHash.Indexes` and `GnuHash.Indexes`: the table indexes the symbols.
  * `hashLookup_spec`: what the chains of `.hash` find.
  * `gnuHashLookupDef_eq`: a lookup in `.gnu.hash` is a linear search of the
    defined symbols.
  * `findSymidxByName_spec`: what `xh_elf_find_symidx_by_name` finds.
-/
import Raphael.Defs
import Raphael.Lib.Chain
import Mathlib.Data.BitVec

namespace Raphael

namespace SymHash

abbrev Byte := BitVec 8

/-- A name, without the 0 behind it. -/
abbrev Name := List Byte

/-- An index of a symbol, `uint32_t` -/
abbrev Idx := BitVec 32

/-! ## Hash functions -/

/-- `xh_elf_hash` and `xdl_sysv_hash`, from the hash of what came before -/
def xhElfHash (h : BitVec 32) : Name → BitVec 32
  | [] => h
  | c :: name =>
    let h := (h <<< 4) + c.setWidth 32
    let g := h &&& 0xf0000000
    let h := h ^^^ g
    xhElfHash (h ^^^ (g >>> 24)) name

/-- `xh_elf_gnu_hash` and `xdl_gnu_hash`, from the hash of what came before -/
def xhElfGnuHash (h : BitVec 32) : Name → BitVec 32
  | [] => h
  | c :: name => xhElfGnuHash (h + ((h <<< 5) + c.setWidth 32)) name

def elfHash (name : Name) : BitVec 32 := xhElfHash 0 name

def gnuHash (name : Name) : BitVec 32 := xhElfGnuHash 5381 name

/-! ## Tables and lookups -/

/-- `.hash` -/
structure SysvHash where
  bucket : BitVec 32 → Idx
  bucketCnt : BitVec 32
  chain : Idx → Idx

/-- `.gnu.hash`, for addresses of `w` bits -/
structure GnuHash (w : ℕ) where
  bucket : BitVec 32 → Idx
  bucketCnt : BitVec 32
  chain : BitVec 32 → BitVec 32
  symoffset : Idx
  bloom : BitVec 32 → BitVec w
  bloomSz : BitVec 32
  bloomShift : BitVec 32

/-- The loop over a chain of `.hash`, with at most `rounds` rounds: the index that it
    found, or nothing if it is still running. -/
def chainLoop (t : SysvHash) (hit : Idx → Bool) : ℕ → Idx → Option (Option Idx)
  | 0, _ => none
  | rounds + 1, i =>
    if i = 0 then some none
    else if hit i then some (some i)
    else chainLoop t hit rounds (t.chain i)

/-- The loop over a run of `.gnu.hash`. -/
def runLoop {w : ℕ} (t : GnuHash w) (hash : BitVec 32) (hit : Idx → Bool) :
    ℕ → Idx → Option (Option Idx)
  | 0, _ => none
  | rounds + 1, i =>
    let symhash := t.chain (i - t.symoffset)
    if hash ||| 1 = symhash ||| 1 ∧ hit i then some (some i)
    else if symhash &&& 1 ≠ 0 then some none
    else runLoop t hash hit rounds (i + 1)

/-- The first index from `i` on, among `k` ones. -/
def scan (hit : Idx → Bool) (i : Idx) : ℕ → Option Idx
  | 0 => none
  | k + 1 => if hit i then some i else scan hit (i + 1) k

/-- The bits of a hash in the bloom filter. -/
def GnuHash.mask {w : ℕ} (t : GnuHash w) (hash : BitVec 32) : BitVec w :=
  ((1 : BitVec w) <<< (hash % BitVec.ofNat 32 w).toNat) |||
    ((1 : BitVec w) <<< ((hash >>> t.bloomShift.toNat) % BitVec.ofNat 32 w).toNat)

/-- The word of a hash in the bloom filter. -/
def GnuHash.word {w : ℕ} (t : GnuHash w) (hash : BitVec 32) : BitVec w :=
  t.bloom ((hash / BitVec.ofNat 32 w) % t.bloomSz)

section
variable {w : ℕ} (name : Idx → Name) (rounds : ℕ)

/-- `xh_elf_hash_lookup` and `xdl_dynsym_find_symbol_use_sysv_hash` -/
def hashLookup (t : SysvHash) (symbol : Name) : Option (Option Idx) :=
  chainLoop t (fun i => name i = symbol) rounds (t.bucket (elfHash symbol % t.bucketCnt))

/-- `xh_elf_gnu_hash_lookup_def` and `xdl_dynsym_find_symbol_use_gnu_hash` -/
def gnuHashLookupDef (t : GnuHash w) (symbol : Name) : Option (Option Idx) :=
  let hash := gnuHash symbol
  if t.word hash &&& t.mask hash ≠ t.mask hash then some none
  else
    let i := t.bucket (hash % t.bucketCnt)
    if i < t.symoffset then some none
    else runLoop t hash (fun i => name i = symbol) rounds i

/-- `xh_elf_gnu_hash_lookup_undef` -/
def gnuHashLookupUndef (t : GnuHash w) (symbol : Name) : Option Idx :=
  scan (fun i => name i = symbol) 0 t.symoffset.toNat

/-- `xh_elf_gnu_hash_lookup` -/
def gnuHashLookup (t : GnuHash w) (symbol : Name) : Option (Option Idx) :=
  match gnuHashLookupDef name rounds t symbol with
  | none => none
  | some (some i) => some (some i)
  | some none => some (gnuHashLookupUndef name t symbol)

end

/-! ## Linear search -/

section scan
variable {hit : Idx → Bool} {i : Idx}

theorem scan_append (m k : ℕ) (h : ∀ j < m, hit (i + BitVec.ofNat 32 j) = false) :
    scan hit i (m + k) = scan hit (i + BitVec.ofNat 32 m) k := by
  induction m generalizing i with
  | zero => rw [Nat.zero_add, BitVec.add_zero]
  | succ m ih =>
    have h0 : hit i = false := by simpa using h 0 (Nat.succ_pos m)
    have hs (j : ℕ) : i + BitVec.ofNat 32 (j + 1) = i + 1 + BitVec.ofNat 32 j := by
      rw [BitVec.ofNat_add, BitVec.add_comm (BitVec.ofNat 32 j), ← BitVec.add_assoc]
      rfl
    rw [Nat.add_right_comm, scan, if_neg (by rw [h0]; exact Bool.false_ne_true), hs]
    refine ih fun j hj => ?_
    rw [← hs]
    exact h (j + 1) (by omega)

theorem scan_eq_none {k : ℕ} (h : ∀ j < k, hit (i + BitVec.ofNat 32 j) = false) :
    scan hit i k = none := by
  have := scan_append k 0 h
  rwa [Nat.add_zero] at this

theorem scan_prefix (m k : ℕ) (h : ∀ j, m ≤ j → j < m + k → hit (i + BitVec.ofNat 32 j) = false) :
    scan hit i (m + k) = scan hit i m := by
  induction m generalizing i with
  | zero =>
    rw [Nat.zero_add]
    exact scan_eq_none fun j hj => h j (Nat.zero_le j) (by omega)
  | succ m ih =>
    have hs (j : ℕ) : i + BitVec.ofNat 32 (j + 1) = i + 1 + BitVec.ofNat 32 j := by
      rw [BitVec.ofNat_add, BitVec.add_comm (BitVec.ofNat 32 j), ← BitVec.add_assoc]
      rfl
    rw [Nat.add_right_comm, scan, scan, ih fun j hj hj' => ?_]
    rw [← hs]
    exact h (j + 1) (by omega) (by omega)

end scan

/-! ## Lookups in a `.gnu.hash` -/

section gnu
variable {w : ℕ}

/-- The table indexes the symbols from `symoffset` to `n`. -/
structure GnuHash.Indexes (t : GnuHash w) (name : Idx → Name) (n : ℕ) : Prop where
  size : n < 2 ^ 32
  /-- no division by 0, no shift out of the word -/
  buckets : t.bucketCnt ≠ 0
  words : t.bloomSz ≠ 0
  shift : t.bloomShift < 32
  hashes : ∀ i : Idx, t.symoffset ≤ i → i.toNat < n →
    t.chain (i - t.symoffset) ||| 1 = gnuHash (name i) ||| 1
  filter : ∀ i : Idx, t.symoffset ≤ i → i.toNat < n →
    t.word (gnuHash (name i)) &&& t.mask (gnuHash (name i)) = t.mask (gnuHash (name i))
  /-- the run of a bucket holds its symbols -/
  run : ∀ i : Idx, t.symoffset ≤ i → i.toNat < n →
    let b := t.bucket (gnuHash (name i) % t.bucketCnt)
    t.symoffset ≤ b ∧ b ≤ i ∧ ∀ j, b ≤ j → j < i → t.chain (j - t.symoffset) &&& 1 = 0
  /-- and ends at a mark, in the table -/
  ends : ∀ b < t.bucketCnt, t.symoffset ≤ t.bucket b → ∃ e : Idx, t.bucket b ≤ e ∧ e.toNat < n ∧
    t.chain (e - t.symoffset) &&& 1 ≠ 0 ∧
    ∀ j, t.bucket b ≤ j → j < e → t.chain (j - t.symoffset) &&& 1 = 0

variable {t : GnuHash w} {name : Idx → Name} {n : ℕ} {symbol : Name}

/-- The loop over a run, up to its end `e`. -/
theorem runLoop_eq {hash : BitVec 32} {hit : Idx → Bool} {i e : Idx}
    (hh : ∀ j, i ≤ j → j ≤ e → hit j → t.chain (j - t.symoffset) ||| 1 = hash ||| 1)
    (hie : i ≤ e) (he : t.chain (e - t.symoffset) &&& 1 ≠ 0)
    (hn : ∀ j, i ≤ j → j < e → t.chain (j - t.symoffset) &&& 1 = 0) {rounds : ℕ}
    (hr : e.toNat - i.toNat < rounds) :
    runLoop t hash hit rounds i = some (scan hit i (e.toNat - i.toNat + 1)) := by
  induction rounds generalizing i with
  | zero => omega
  | succ rounds ih =>
    rw [runLoop, scan]
    by_cases hi : hit i
    · rw [if_pos ⟨(hh i (BitVec.le_refl i) hie hi).symm, hi⟩, if_pos hi]
    · rw [if_neg fun h => hi h.2, if_neg hi]
      by_cases hlt : i < e
      · have hs : (i + 1).toNat = i.toNat + 1 := by bv_omega
        have hk : e.toNat - i.toNat = e.toNat - (i + 1).toNat + 1 := by bv_omega
        rw [if_neg (not_not_intro (hn i (BitVec.le_refl i) hlt)), hk]
        exact ih (fun j hj => hh j (by bv_omega)) (by bv_omega) (fun j hj => hn j (by bv_omega))
          (by bv_omega)
      · obtain rfl : i = e := by bv_omega
        rw [if_pos he, Nat.sub_self]
        rfl

/-- No symbol of the name is defined. -/
theorem scan_defined_none {hit : Idx → Bool} {n : ℕ} {s : Idx}
    (h : ∀ i : Idx, s ≤ i → i.toNat < n → hit i = false) (hn : n < 2 ^ 32) :
    scan hit s (n - s.toNat) = none :=
  scan_eq_none fun j hj => h _ (by bv_omega) (by bv_omega)

/-- **A lookup is a linear search of the defined symbols.** -/
theorem gnuHashLookupDef_eq (h : t.Indexes name n) (symbol : Name) {rounds : ℕ} (hr : n ≤ rounds) :
    gnuHashLookupDef name rounds t symbol =
      some (scan (fun i => name i = symbol) t.symoffset (n - t.symoffset.toNat)) := by
  have hsize := h.size
  rw [gnuHashLookupDef]
  dsimp only
  split
  next hbloom =>
    rw [scan_defined_none (fun i hs hi => decide_eq_false fun e => ?_) hsize]
    exact hbloom (e ▸ h.filter i hs hi)
  next =>
    split
    next hlt =>
      rw [scan_defined_none (fun i hs hi => decide_eq_false fun e => ?_) hsize]
      obtain ⟨hb, -⟩ := h.run i hs hi
      rw [e] at hb
      exact BitVec.not_lt.2 hb hlt
    next hge =>
      have hb : t.symoffset ≤ t.bucket (gnuHash symbol % t.bucketCnt) := BitVec.not_lt.1 hge
      have hcnt : gnuHash symbol % t.bucketCnt < t.bucketCnt :=
        BitVec.umod_lt _ ((BitVec.pos_iff_ne_zero _).2 h.buckets)
      obtain ⟨e, hbe, hen, he, hrun⟩ := h.ends _ hcnt hb
      revert hb hbe hrun
      generalize hbucket : t.bucket (gnuHash symbol % t.bucketCnt) = b
      intro hb hbe hrun
      have hin (i : Idx) (hs : t.symoffset ≤ i) (hi : i.toNat < n) (hname : name i = symbol) :
          b ≤ i ∧ i ≤ e := by
        obtain ⟨-, hbi, hbits⟩ := h.run i hs hi
        rw [hname, hbucket] at hbi hbits
        refine ⟨hbi, BitVec.not_lt.1 fun hei => he (hbits e hbe hei)⟩
      have hloop : runLoop t (gnuHash symbol) (fun i => name i = symbol) rounds b =
          some (scan (fun i => name i = symbol) b (e.toNat - b.toNat + 1)) :=
        runLoop_eq (fun j hj hje hname => by
          rw [h.hashes j (BitVec.le_trans hb hj) (by bv_omega), of_decide_eq_true hname])
          hbe he hrun (by bv_omega)
      have hsplit : n - t.symoffset.toNat =
          b.toNat - t.symoffset.toNat + (e.toNat - b.toNat + 1 + (n - e.toNat - 1)) := by
        bv_omega
      have hstart : t.symoffset + BitVec.ofNat 32 (b.toNat - t.symoffset.toNat) = b := by bv_omega
      rw [hloop, hsplit, scan_append (b.toNat - t.symoffset.toNat), hstart,
        scan_prefix (e.toNat - b.toNat + 1)]
      · intro j hj hj'
        refine decide_eq_false fun hname => ?_
        have := (hin _ (by bv_omega) (by bv_omega) hname).2
        bv_omega
      · intro j hj
        refine decide_eq_false fun hname => ?_
        have := (hin _ (by bv_omega) (by bv_omega) hname).1
        bv_omega

end gnu

/-! ## Lookups in a `.hash` -/

section sysv

/-- The index 0 ends a chain. -/
def ptr (i : Idx) : Option Idx := if i = 0 then none else some i

/-- The chain of a bucket holds its symbols, those from 1 to `n`. -/
structure SysvHash.Indexes (t : SysvHash) (name : Idx → Name) (n : ℕ) : Prop where
  buckets : t.bucketCnt ≠ 0
  chains : ∀ symbol : Name, ∃ l : List Idx,
    Linked.Path (fun i => ptr (t.chain i)) (ptr (t.bucket (elfHash symbol % t.bucketCnt))) l ∧
    (∀ i ∈ l, i.toNat < n) ∧ ∀ i : Idx, i ≠ 0 → i.toNat < n → name i = symbol → i ∈ l

variable {t : SysvHash} {name : Idx → Name} {n : ℕ}

theorem chainLoop_path {hit : Idx → Bool} {i : Idx} {l : List Idx}
    (h : Linked.Path (fun i => ptr (t.chain i)) (ptr i) l) {rounds : ℕ} (hr : l.length < rounds) :
    chainLoop t hit rounds i = some (l.find? hit) := by
  induction l generalizing i rounds with
  | nil =>
    obtain ⟨rounds, rfl⟩ := Nat.exists_eq_add_one.2 hr
    have h0 : i = 0 := by
      by_contra hne
      have h : ptr i = none := h
      rw [ptr, if_neg hne] at h
      cases h
    rw [chainLoop, if_pos h0]
    rfl
  | cons x l ih =>
    obtain ⟨rounds, rfl⟩ := Nat.exists_eq_add_one.2 (Nat.zero_lt_of_lt hr)
    obtain ⟨hx, h⟩ := h
    have h0 : i ≠ 0 := by
      rintro rfl
      cases hx
    rw [ptr, if_neg h0] at hx
    cases hx
    rw [chainLoop, if_neg h0, List.find?_cons]
    cases hi : hit x with
    | true => rfl
    | false => exact ih h (by simpa using hr)

/-- A chain without repetitions is no longer than the table. -/
theorem length_le_of_nodup {l : List Idx} (hd : l.Nodup) (hn : ∀ i ∈ l, i.toNat < n) :
    l.length ≤ n := by
  have hmap : (l.map BitVec.toNat).Nodup := hd.map fun _ _ => BitVec.eq_of_toNat_eq
  have hsub : l.map BitVec.toNat ⊆ List.range n := by
    intro k hk
    obtain ⟨i, hi, rfl⟩ := List.mem_map.1 hk
    exact List.mem_range.2 (hn i hi)
  have hlen := (hmap.subperm hsub).length_le
  rwa [List.length_map, List.length_range] at hlen

/-- **A lookup finds a symbol of the name, unless there is none.** -/
theorem hashLookup_spec (h : t.Indexes name n) (symbol : Name) {rounds : ℕ} (hr : n < rounds) :
    ∃ r, hashLookup name rounds t symbol = some r ∧
      (∀ i ∈ r, i.toNat < n ∧ name i = symbol) ∧
      (r = none → ∀ i : Idx, i ≠ 0 → i.toNat < n → name i ≠ symbol) := by
  obtain ⟨l, hp, hl, hall⟩ := h.chains symbol
  have hlen := length_le_of_nodup hp.nodup hl
  refine ⟨_, chainLoop_path hp (by omega), ?_, ?_⟩
  · intro i hi
    have hname := List.find?_some (Option.mem_def.1 hi)
    exact ⟨hl i (List.mem_of_find?_eq_some hi), of_decide_eq_true hname⟩
  · intro hnone i h0 hi hname
    exact List.find?_eq_none.1 hnone i (hall i h0 hi hname) (decide_eq_true hname)

end sysv

/-! ## The two libraries -/

section
variable {w : ℕ}

/-- The hash table that `xh_elf_init` chose. -/
inductive HashTable (w : ℕ)
  | sysv (t : SysvHash)
  | gnu (t : GnuHash w)

/-- `xh_elf_find_symidx_by_name` -/
def findSymidxByName (name : Idx → Name) (rounds : ℕ) : HashTable w → Name → Option (Option Idx)
  | .gnu t, symbol => gnuHashLookup name rounds t symbol
  | .sysv t, symbol => hashLookup name rounds t symbol

/-- The table indexes the `n` symbols; those before `symoffset` need no hash. -/
def HashTable.Indexes (name : Idx → Name) (n : ℕ) : HashTable w → Prop
  | .sysv t => t.Indexes name n
  | .gnu t => t.Indexes name n ∧ t.symoffset.toNat ≤ n

theorem scan_spec (hit : Idx → Bool) {i : Idx} {k : ℕ} (hk : i.toNat + k < 2 ^ 32) :
    (∀ j ∈ scan hit i k, i ≤ j ∧ j.toNat < i.toNat + k ∧ hit j) ∧
      (scan hit i k = none → ∀ j : Idx, i ≤ j → j.toNat < i.toNat + k → hit j = false) := by
  induction k generalizing i with
  | zero => exact ⟨nofun, fun _ j hj hj' => by bv_omega⟩
  | succ k ih =>
    have hs : (i + 1).toNat = i.toNat + 1 := by bv_omega
    obtain ⟨hsome, hnone⟩ := ih (i := i + 1) (by omega)
    rw [scan]
    cases hi : hit i with
    | true => exact ⟨by rintro j ⟨⟩; exact ⟨BitVec.le_refl i, by omega, hi⟩, nofun⟩
    | false =>
      refine ⟨fun j hj => ?_, fun h j hj hj' => ?_⟩
      · obtain ⟨h₁, h₂, h₃⟩ := hsome j hj
        exact ⟨by bv_omega, by omega, h₃⟩
      · by_cases he : j = i
        · rw [he, hi]
        · exact hnone h j (by bv_omega) (by bv_omega)

/-- **A symbol is found by its name**, if there is one, defined or not. -/
theorem findSymidxByName_spec {tab : HashTable w} {name : Idx → Name} {n : ℕ} (h : tab.Indexes name n)
    {symbol : Name} (hs : symbol ≠ name 0) {rounds : ℕ} (hr : n < rounds) :
    ∃ r, findSymidxByName name rounds tab symbol = some r ∧
      (∀ i ∈ r, i.toNat < n ∧ name i = symbol) ∧
      (r = none → ∀ i : Idx, i.toNat < n → name i ≠ symbol) := by
  cases tab with
  | sysv t =>
    obtain ⟨r, hl, hsome, hnone⟩ := hashLookup_spec h symbol hr
    refine ⟨r, hl, hsome, fun hr i hi hname => ?_⟩
    by_cases h0 : i = 0
    · exact hs (h0 ▸ hname).symm
    · exact hnone hr i h0 hi hname
  | gnu t =>
    obtain ⟨h, hoff⟩ := h
    have hsize := h.size
    obtain ⟨hsome, hnone⟩ := scan_spec (fun i => name i = symbol) (i := t.symoffset)
      (k := n - t.symoffset.toNat) (by omega)
    obtain ⟨hsome', hnone'⟩ := scan_spec (fun i => name i = symbol) (i := 0)
      (k := t.symoffset.toNat) (by bv_omega)
    rw [findSymidxByName, gnuHashLookup, gnuHashLookupDef_eq h symbol hr.le]
    cases hdef : scan (fun i => name i = symbol) t.symoffset (n - t.symoffset.toNat) with
    | some i =>
      obtain ⟨-, hi, hname⟩ := hsome i hdef
      refine ⟨some i, rfl, ?_, nofun⟩
      rintro _ ⟨⟩
      exact ⟨by omega, of_decide_eq_true hname⟩
    | none =>
      refine ⟨_, rfl, fun i hi => ?_, fun hr i hi hname => ?_⟩
      · obtain ⟨-, hi, hname⟩ := hsome' i hi
        exact ⟨by bv_omega, of_decide_eq_true hname⟩
      · by_cases hlt : i < t.symoffset
        · exact of_decide_eq_false (hnone' hr i (by bv_omega) (by bv_omega)) hname
        · exact of_decide_eq_false (hnone hdef i (by bv_omega) (by bv_omega)) hname

end

/-- The symbol `u` is undefined, `a` and `b` are defined. -/
def sampleName (i : Idx) : Name := if i = 1 then [0x75] else if i = 2 then [0x61] else
  if i = 3 then [0x62] else []

/-- One bucket with both, and a filter that lets all names through. -/
def sampleGnu : GnuHash 32 where
  bucket _ := 2
  bucketCnt := 1
  chain i := if i = 0 then 177670 else 177671
  symoffset := 2
  bloom _ := -1
  bloomSz := 1
  bloomShift := 5

theorem sampleGnu_indexes : sampleGnu.Indexes sampleName 4 := by
  have hi : ∀ i : Idx, sampleGnu.symoffset ≤ i → i.toNat < 4 → i = 2 ∨ i = 3 := by
    intro i hs hi
    have hs : 2 ≤ i := hs
    bv_omega
  refine ⟨by decide, by decide, by decide, by decide, ?_, ?_, ?_, ?_⟩
  · intro i hs hn
    rcases hi i hs hn with rfl | rfl <;> decide
  · intro i hs hn
    rcases hi i hs hn with rfl | rfl <;> decide
  · intro i hs hn
    refine ⟨BitVec.le_refl _, hs, fun j hj hji => ?_⟩
    have hj : 2 ≤ j := hj
    obtain rfl : j = 2 := by rcases hi i hs hn with rfl | rfl <;> bv_omega
    decide
  · intro b _ _
    refine ⟨3, by show (2 : Idx) ≤ 3; decide, by decide, by decide, fun j hj hj3 => ?_⟩
    have hj : 2 ≤ j := hj
    obtain rfl : j = 2 := by bv_omega
    decide

theorem findSymidxByName_spec_sample :
    (∃ i, findSymidxByName sampleName 5 (.gnu sampleGnu) [0x62] = some (some i) ∧
      sampleName i = [0x62]) ∧
    ∃ i, findSymidxByName sampleName 5 (.gnu sampleGnu) [0x75] = some (some i) ∧
      sampleName i = [0x75] := by
  have hindexes : (HashTable.gnu sampleGnu).Indexes sampleName 4 := ⟨sampleGnu_indexes, by decide⟩
  have hfind : ∀ s : Name, s ≠ [] → (∃ i : Idx, i.toNat < 4 ∧ sampleName i = s) →
      ∃ i, findSymidxByName sampleName 5 (.gnu sampleGnu) s = some (some i) ∧ sampleName i = s := by
    rintro s hs ⟨i, hi, hname⟩
    obtain ⟨r, hr, hsome, hnone⟩ := findSymidxByName_spec hindexes hs (Nat.lt_succ_self 4)
    cases r with
    | none => exact absurd hname (hnone rfl i hi)
    | some i => exact ⟨i, hr, (hsome i rfl).2⟩
  exact ⟨hfind [0x62] (by decide) ⟨3, by decide, by decide⟩,
    hfind [0x75] (by decide) ⟨1, by decide, by decide⟩⟩

end SymHash

end Raphael
