/-
  Traces: what `MemoryCache::insert` leaves in a node's trace.

  `Backtrace.store` stays inside the two arrays iff the captured depth is at
  most `MAX_TRACE_DEPTH` (`store_isSome`), and the trace it leaves is
  terminated and lists `Backtrace.stored`, whatever the node held before
  (`frames_store`).
-/
import Raphael.Defs

namespace Raphael

namespace Trace

theorem get?_of_lt (t : Trace) {i : ℕ} (h : i < maxTraceDepth) : t.get? i = some (t ⟨i, h⟩) :=
  dif_pos h

theorem set?_of_lt (t : Trace) {i : ℕ} (h : i < maxTraceDepth) (v : Word) :
    t.set? i v = some (Function.update t ⟨i, h⟩ v) :=
  dif_pos h

@[simp] theorem set?_isSome (t : Trace) (i : ℕ) (v : Word) :
    (t.set? i v).isSome ↔ i < maxTraceDepth := by
  unfold set?; split <;> simp_all

theorem copy_of_le (dst src : Trace) (off n : ℕ) (h : off + n ≤ maxTraceDepth) :
    copy dst src off n =
      some fun i => if hi : i.1 < n then src ⟨off + i.1, by omega⟩ else dst i := by
  induction n with
  | zero => simp [copy]
  | succ n ih =>
    have hg : src.get? (off + n) = some _ := src.get?_of_lt (by omega)
    simp only [copy, ih (by omega), hg, Option.bind_eq_bind, Option.bind_some]
    rw [set?_of_lt _ (by omega)]
    refine congrArg some (funext fun i => ?_)
    rcases lt_trichotomy i.1 n with hi | hi | hi
    · rw [Function.update_of_ne (by simp [Fin.ext_iff]; omega)]
      simp [hi, show i.1 < n + 1 by omega]
    · rw [show i = ⟨n, by omega⟩ from Fin.ext hi]
      simp
    · rw [Function.update_of_ne (by simp [Fin.ext_iff]; omega)]
      simp [show ¬ i.1 < n by omega, show ¬ i.1 < n + 1 by omega]

theorem copy_isSome (dst src : Trace) (off n : ℕ) :
    (copy dst src off n).isSome ↔ n = 0 ∨ off + n ≤ maxTraceDepth := by
  by_cases h : off + n ≤ maxTraceDepth
  · simp [copy_of_le dst src off n h, h]
  · rcases n with _ | n
    · simp [copy]
    · have hg : src.get? (off + n) = none := dif_neg (by omega)
      simp only [h, or_false, Nat.add_eq_zero_iff, one_ne_zero, and_false, iff_false, copy, hg]
      cases copy dst src off n <;> simp

/-- The slots of an array whose first `d` ones were copied and followed by `v`. -/
theorem ofFn_fill {N off d : ℕ} (src dst : Fin N → Word) (h : off + d ≤ N) (hd : d < N)
    {v : Word} : List.ofFn (Function.update
        (fun i => if hi : i.1 < d then src ⟨off + i.1, by omega⟩ else dst i) ⟨d, hd⟩ v) =
      ((List.ofFn src).drop off).take d ++ v :: (List.ofFn dst).drop (d + 1) := by
  have hlen : min d (N - off) = d := by omega
  refine List.ext_getElem (by simp; omega) fun i h₁ h₂ => ?_
  simp only [List.length_ofFn] at h₁
  rw [List.getElem_append, List.getElem_ofFn]
  rcases lt_trichotomy i d with hi | hi | hi
  · rw [Function.update_of_ne (by simp [Fin.ext_iff]; omega), dif_pos (by simpa using hi),
      dif_pos (by simp; omega)]
    simp
  · subst hi
    simp [hlen]
  · rw [Function.update_of_ne (by simp [Fin.ext_iff]; omega), dif_neg (by simp; omega),
      dif_neg (by simp; omega)]
    obtain ⟨k, rfl⟩ : ∃ k, i = d + 1 + k := ⟨i - d - 1, by omega⟩
    simp [hlen, show d + 1 + k - d = k + 1 by omega]

theorem scan_append (l l' : List Word) :
    scan (l ++ 0 :: l') = some (l.takeWhile (· ≠ 0)) := by
  induction l with
  | nil => simp [scan]
  | cons v l ih =>
    by_cases hv : v = 0#64
    · simp [scan, hv]
    · simpa [scan, hv] using ih

end Trace

namespace Backtrace

/-- The number of frames `MemoryCache::insert` copies. -/
def storedDepth (bt : Backtrace) : ℕ := (if 2 < bt.depth then bt.depth - 2 else 1).toNat

theorem storedDepth_eq (bt : Backtrace) :
    bt.storedDepth = if 2 < bt.depth.toNat then bt.depth.toNat - 2 else 1 := by
  unfold storedDepth
  split_ifs with h h' h'
  · bv_omega
  · exact absurd h (by bv_omega)
  · exact absurd h' (by bv_omega)
  · rfl

theorem storedDepth_le (bt : Backtrace) :
    2 + bt.storedDepth ≤ maxTraceDepth ↔ bt.depth.toNat ≤ maxTraceDepth := by
  have : maxTraceDepth = 16 := rfl
  rw [storedDepth_eq]; split_ifs <;> omega

/-- The entries a table node lists for `bt`. -/
def stored (bt : Backtrace) : List Word :=
  (((List.ofFn bt.trace).drop 2).take bt.storedDepth).takeWhile (· ≠ 0)

/-- **Storing a backtrace stays inside the arrays iff its depth fits.** -/
theorem store_isSome (bt : Backtrace) (t : Trace) :
    (bt.store t).isSome ↔ bt.depth.toNat ≤ maxTraceDepth := by
  have hpos : bt.storedDepth ≠ 0 := by rw [storedDepth_eq]; split_ifs <;> omega
  rw [← storedDepth_le]
  change ((t.copy bt.trace 2 bt.storedDepth).bind fun t' => t'.set? bt.storedDepth 0).isSome ↔ _
  by_cases h : 2 + bt.storedDepth ≤ maxTraceDepth
  · simp only [Trace.copy_of_le _ _ _ _ h, Option.bind_some, Trace.set?_isSome, h, iff_true]
    omega
  · have hc : t.copy bt.trace 2 bt.storedDepth = none := by
      rw [← Option.not_isSome_iff_eq_none, Trace.copy_isSome]; simp [hpos, h]
    simp [hc, h]

/-- **The stored trace lists `stored`**, whatever the node held before. -/
theorem frames_store {bt : Backtrace} {t t' : Trace} (h : bt.store t = some t') :
    t'.frames = some bt.stored := by
  have h16 : maxTraceDepth = 16 := rfl
  have hd : 2 + bt.storedDepth ≤ maxTraceDepth :=
    bt.storedDepth_le.2 ((bt.store_isSome t).1 (by simp [h]))
  change ((t.copy bt.trace 2 bt.storedDepth).bind fun t' => t'.set? bt.storedDepth 0) = _ at h
  rw [Trace.copy_of_le _ _ _ _ hd, Option.bind_some, Trace.set?_of_lt _ (by omega)] at h
  rw [← Option.some.inj h, Trace.frames, Trace.ofFn_fill bt.trace t hd (by omega),
    Trace.scan_append]
  rfl

end Backtrace

end Raphael
