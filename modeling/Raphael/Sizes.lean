/-
  The size path: from the arguments of a call over the `uint` of `calloc_proxy`,
  the `uint32_t` of the node and the `%u` of the report to the printed number.

  * `size_exact_iff`: the path is exact iff the call asks for less than 2^32
    bytes.
-/
import Raphael.Heap

namespace Raphael

/-- The records of the address `r` that a call which returned `r` leaves of those
    the table held. -/
def Call.leaves (cache : MemoryCache) (c : Call) (r : Word) : List Record :=
  if c.released r = some r ∧ r ≠ 0 then (cache.held r).tail else cache.held r

/-- The size path of a successful call is exact: the call is recorded iff it is
    to be, with its true byte count, which the header of the record shows; and
    `calloc(count, bytes)` is treated as `malloc(count * bytes)`. -/
structure SizeExact (g : Configs) (cache : MemoryCache) (c : Call) (ans : Answers) : Prop where
  recorded : c.wanted g.limit → ∃ s r,
    exec g Heap.observe (.leaf c ans) ⟨cache, false, false⟩ = some s ∧
    s.cache.held ans.result = r :: c.leaves cache ans.result ∧ r.size.toNat = c.bytes ∧
    headerBody r.addr r.size =
      addrText ans.result ++ ", ".toList ++ Nat.toDigits 10 c.bytes ++ ", 1".toList
  passed : ¬ c.wanted g.limit → ∃ s,
    exec g Heap.observe (.leaf c ans) ⟨cache, false, false⟩ = some s ∧
    s.cache.held ans.result = c.leaves cache ans.result
  calloc : ∀ count bytes, c = .calloc count bytes →
    (exec g Heap.observe (.leaf c ans) ⟨cache, false, false⟩).map Seq.cache =
      (exec g Heap.observe (.leaf (.malloc (count * bytes)) ans)
        ⟨cache, false, false⟩).map Seq.cache

section
variable {g : Configs} {cache : MemoryCache} {c : Call} {ans : Answers}

/-- A node has no room for more. -/
theorem SizeExact.lt (h : SizeExact g cache c ans) : c.bytes < 2 ^ 32 := by
  by_contra hge
  have hl := g.limit.isLt
  obtain ⟨_, r, -, -, hr, -⟩ := h.recorded (Or.inr (by omega))
  have := r.size.isLt
  omega

/-- Below 2^32 bytes `calloc` makes the accesses of `malloc`. -/
theorem calloc_accesses {count bytes r : Word} {bt : Backtrace}
    (h : (Call.calloc count bytes).bytes < 2 ^ 32) :
    (Call.calloc count bytes).accesses g bt r = (Call.malloc (count * bytes)).accesses g bt r := by
  have hsize : ((count * bytes).setWidth 32).setWidth 64 = count * bytes := by
    refine BitVec.eq_of_toNat_eq ?_
    simp only [Call.bytes] at h
    simp only [BitVec.toNat_setWidth, BitVec.toNat_mul]
    omega
  simp only [Call.accesses, Call.tracked, Call.acts, Call.drops, Call.records, Call.size, hsize]
  rfl

/-- **The size path is exact** iff the call asks for less than 2^32 bytes. -/
theorem size_exact_iff (hc : c.watched g) (hr : c.obtains ans.result) (hfit : ans.Fits)
    (hwf : cache.Wf) (hfree : cache.full = false) :
    SizeExact g cache c ans ↔ c.bytes < 2 ^ 32 := by
  refine ⟨SizeExact.lt, fun h => ?_⟩
  have hpw := Call.passes_iff g.limit h hr
  obtain ⟨s, e, -, -, hghost, hheld⟩ := Heap.exec_call (s := ⟨cache, false, false⟩) hc hfit rfl hwf
  have hheld := (hheld (hghost rfl hfree)).2 ans.result
  refine ⟨fun hw => ?_, fun hw => ?_, fun count bytes e' => ?_⟩
  · rw [if_pos ⟨⟨hr, hpw.2 hw⟩, rfl⟩] at hheld
    have hsize : (c.size.setWidth 32).toNat = c.bytes := by
      rw [BitVec.toNat_setWidth, Call.size_toNat h hr, Nat.mod_eq_of_lt h]
    refine ⟨s, _, e, hheld, hsize, ?_⟩
    rw [headerBody, dec, hsize]
  · rw [if_neg fun h => hw (hpw.1 h.1.2)] at hheld
    exact ⟨s, e, hheld⟩
  · subst e'
    rw [exec_leaf (by simp) rfl, exec_leaf (by simp) rfl, calloc_accesses h]

theorem size_exact_page :
    SizeExact .both MemoryCache.blank.reset (.mmap 0 4096 3 34 0 0) (.of 0x10000) :=
  (size_exact_iff rfl (by decide) (Answers.fits_of _) (MemoryCache.Wf.reset rfl)
    (by decide +kernel)).2 (by decide)

/-- `calloc(65536, 65536)`: the `uint` is 0, nothing is recorded. -/
theorem size_inexact_calloc : ¬ ∀ (g : Configs) (cache : MemoryCache) (c : Call) (ans : Answers),
    c.watched g → c.obtains ans.result → ans.Fits → c.bytes < 2 ^ 64 → cache.Wf →
    cache.full = false → SizeExact g cache c ans := by
  intro h
  have := (h .both MemoryCache.blank.reset (.calloc 65536 65536) (.of 0x10000) rfl (by decide)
    (Answers.fits_of _) (by decide) (MemoryCache.Wf.reset rfl) (by decide +kernel)).lt
  exact absurd this (by decide)

end

end Raphael
