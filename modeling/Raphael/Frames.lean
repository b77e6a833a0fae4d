/-
  The frames of a backtrace, from the walk to the node.

  * `walkLoop` is the loop of `unwind_backtrace` with every read, addition and
    subtraction checked, and it lists the frame pointers it visits: where the
    stack has room for a frame and the walk starts at an aligned address, no
    check fails (`walk_spec`).
  * `Captured` is a backtrace as the walk leaves it: some non-zero frames, and
    whatever the other slots held.  The node lists its frames from the third on
    iff there is a third one (`storesFrames_iff`).
-/
import Raphael.Store
import Raphael.Unwind
import Mathlib.Data.List.GetD

namespace Raphael

/-! ## The checked walk -/

/-- The word at `a`, which has to lie between `lo` and `hi`. -/
def read? (mem : Word → Word) (lo hi a : Word) : Option Word :=
  if lo < a ∧ a.toNat + 8 ≤ hi.toNat then some (mem a) else none

/-- `a + b` without a carry. -/
def add? (a b : Word) : Option Word := if a.toNat + b.toNat < 2 ^ 64 then some (a + b) else none

/-- `a - b` without a borrow. -/
def sub? (a b : Word) : Option Word := if b ≤ a then some (a - b) else none

/-- The loop of `unwind_backtrace` on the stack from `lo` to `st`, with at most
    the given number of rounds, and the frame pointers of its rounds. -/
def walkLoop {n : ℕ} (mem : Word → Word) (lo st : Word) (maxDepth : ℕ) :
    ℕ → Walk n → Option (Walk n × List Word)
  | 0, _ => none
  | rounds + 1, w => do
    let top ← sub? st kFrameSize
    if w.fp > w.sb ∧ w.fp < top ∧ w.depth < maxDepth then
      let slot ← add? w.fp 8
      let tt ← read? mem lo st slot
      let pre ← read? mem lo st w.fp
      let above ← add? w.fp kFrameSize
      if pre &&& 0xf ≠ 0 ∨ pre < above then some (w, [w.fp])
      else if tt ≠ w.pc then do
        let stack ← write? w.stack w.depth tt
        let (w', fps) ← walkLoop mem lo st maxDepth rounds ⟨pre, w.fp, tt, w.depth + 1, stack⟩
        some (w', w.fp :: fps)
      else do
        let (w', fps) ← walkLoop mem lo st maxDepth rounds ⟨pre, w.fp, tt, w.depth, w.stack⟩
        some (w', w.fp :: fps)
    else some (w, [])

/-- The frame pointers go up, a frame at least at a time, aligned and from `fp`
    on. -/
structure Climbs (fp : Word) (fps : List Word) : Prop where
  above : ∀ a ∈ fps, fp ≤ a
  aligned : ∀ a ∈ fps, a &&& 0xf = 0
  rising : fps.Pairwise fun a b => a.toNat + 16 ≤ b.toNat

theorem Climbs.nil (fp : Word) : Climbs fp [] := ⟨by simp, by simp, List.Pairwise.nil⟩

theorem Climbs.cons {fp pre : Word} {fps : List Word} (h : Climbs pre fps)
    (hfp : fp &&& 0xf = 0) (hpre : fp.toNat + 16 ≤ pre.toNat) : Climbs fp (fp :: fps) where
  above a ha := by
    rcases List.mem_cons.1 ha with rfl | ha
    · exact BitVec.le_refl _
    · have := h.above a ha
      bv_omega
  aligned := List.forall_mem_cons.2 ⟨hfp, h.aligned⟩
  rising := by
    refine List.pairwise_cons.2 ⟨fun a ha => ?_, h.rising⟩
    have := h.above a ha
    bv_omega

section walk
variable {n : ℕ} {mem : Word → Word} {lo st sb fp pre : Word} {maxDepth : ℕ}

theorem add?_eq {a b : Word} (h : a.toNat + b.toNat < 2 ^ 64) : add? a b = some (a + b) := if_pos h

theorem sub?_top (h : 16 ≤ st.toNat) : sub? st kFrameSize = some (st - kFrameSize) :=
  if_pos (by simpa [kFrameSize, BitVec.le_def] using h)

/-- A frame inside the range is below the top of the stack. -/
theorem isValid.lt_top (h : isValid fp st sb) (hst : 16 ≤ st.toNat) : fp.toNat + 16 < st.toNat := by
  have h2 := h.2
  have hk : kFrameSize.toNat = 16 := rfl
  rw [BitVec.lt_def, BitVec.toNat_sub_of_le (BitVec.le_def.2 (hk ▸ hst)), hk] at h2
  omega

variable (mem) in
theorem isValid.reads (h : isValid fp st sb) (hst : 16 ≤ st.toNat) (hlo : lo ≤ sb) :
    read? mem lo st fp = some (mem fp) ∧ read? mem lo st (fp + 8) = some (mem (fp + 8)) := by
  have htop := h.lt_top hst
  have h8 : (fp + 8).toNat = fp.toNat + 8 := by bv_omega
  have hsb := h.1
  rw [BitVec.le_def] at hlo
  rw [gt_iff_lt, BitVec.lt_def] at hsb
  exact ⟨if_pos ⟨BitVec.lt_def.2 (by omega), by omega⟩, if_pos ⟨BitVec.lt_def.2 (by omega), by omega⟩⟩

/-- The frame pointer of a caller is aligned and a frame further up. -/
theorem caller_above (h : isValid fp st sb) (hst : 16 ≤ st.toNat) (hb : ¬ broken pre fp) :
    pre &&& 0xf = 0 ∧ fp.toNat + 16 ≤ pre.toNat := by
  have htop := h.lt_top hst
  rw [broken, not_or, not_not] at hb
  refine ⟨hb.1, ?_⟩
  have hpre := hb.2
  have hk : (fp + kFrameSize).toNat = fp.toNat + 16 := by
    have : kFrameSize = 16 := rfl
    bv_omega
  rw [BitVec.not_lt, BitVec.le_def, hk] at hpre
  exact hpre

variable (mem lo) in
/-- In a round at a frame inside the range no check fails. -/
theorem walkLoop_round {w : Walk n} (hst : 16 ≤ st.toNat) (hlo : lo ≤ w.sb)
    (hv : isValid w.fp st w.sb) (hd : w.depth < maxDepth) (rounds : ℕ) :
    walkLoop mem lo st maxDepth (rounds + 1) w =
      if broken (mem w.fp) w.fp then some (w, [w.fp])
      else if mem (w.fp + 8) ≠ w.pc then
        (write? w.stack w.depth (mem (w.fp + 8))).bind fun stack =>
          (walkLoop mem lo st maxDepth rounds
            ⟨mem w.fp, w.fp, mem (w.fp + 8), w.depth + 1, stack⟩).map
              fun x => (x.1, w.fp :: x.2)
      else (walkLoop mem lo st maxDepth rounds
        ⟨mem w.fp, w.fp, mem (w.fp + 8), w.depth, w.stack⟩).map fun x => (x.1, w.fp :: x.2) := by
  have htop := hv.lt_top hst
  obtain ⟨hpre, htt⟩ := hv.reads mem hst hlo
  have hslot : add? w.fp 8 = some (w.fp + 8) := add?_eq (by simp; omega)
  have habove : add? w.fp kFrameSize = some (w.fp + kFrameSize) :=
    add?_eq (by simp [kFrameSize]; omega)
  have hmap : ∀ o : Option (Walk n × List Word),
      (do let (w', fps) ← o; some (w', w.fp :: fps)) = o.map fun x => (x.1, w.fp :: x.2) := by
    intro o
    rcases o with _ | ⟨w', fps⟩ <;> rfl
  rw [walkLoop, sub?_top hst, Option.bind_eq_bind, Option.bind_some, if_pos ⟨hv.1, hv.2, hd⟩,
    hslot, Option.bind_some, htt, Option.bind_some, hpre, Option.bind_some, habove,
    Option.bind_some]
  simp only [hmap]
  rfl

variable (mem lo st) in
/-- **No check of the walk fails**, and it takes no more rounds than there is
    room for frames between its frame pointer and the top. -/
theorem walkLoop_eq (hst : 16 ≤ st.toNat) (hmax : maxDepth ≤ n) {rounds : ℕ} (w : Walk n)
    (hlo : lo ≤ w.sb) (hfp : w.fp &&& 0xf = 0) (h0 : 0 < rounds)
    (hr : w.sb < w.fp → (st.toNat - w.fp.toNat) / 16 < rounds) :
    ∃ w' fps, walkLoop mem lo st maxDepth rounds w = some (w', fps) ∧
      unwindLoop mem st maxDepth rounds w = some w' ∧ Climbs w.fp fps ∧
      (fps ≠ [] → w.sb < w.fp) ∧ fps.length ≤ (st.toNat - w.fp.toNat) / 16 := by
  induction rounds generalizing w with
  | zero => exact absurd h0 (lt_irrefl 0)
  | succ rounds ih =>
    by_cases hv : isValid w.fp st w.sb ∧ w.depth < maxDepth
    · obtain ⟨hv, hd⟩ := hv
      have htop := hv.lt_top hst
      rw [unwindLoop, if_pos ⟨hv, hd⟩, walkLoop_round mem lo hst hlo hv hd]
      by_cases hb : broken (mem w.fp) w.fp
      · -- the walk ends in this round
        refine ⟨w, [w.fp], if_pos hb, if_pos hb, ?_, fun _ => hv.1, ?_⟩
        · exact ⟨by simp, by simpa using hfp, List.pairwise_singleton _ _⟩
        · simp only [List.length_singleton]
          omega
      · obtain ⟨hal, hup⟩ := caller_above hv hst hb
        -- whatever is written, the walk goes on at the caller
        have hgo : ∀ (pc : Word) (depth : ℕ) (stack : Fin n → Word), ∃ w' fps,
            walkLoop mem lo st maxDepth rounds ⟨mem w.fp, w.fp, pc, depth, stack⟩ = some (w', fps) ∧
              unwindLoop mem st maxDepth rounds ⟨mem w.fp, w.fp, pc, depth, stack⟩ = some w' ∧
              Climbs w.fp (w.fp :: fps) ∧
              (w.fp :: fps).length ≤ (st.toNat - w.fp.toNat) / 16 := by
          intro pc depth stack
          have hr := hr hv.1
          have hsb := hv.1
          have hlo' : lo ≤ w.fp := by bv_omega
          have hrounds : 0 < rounds := by omega
          obtain ⟨w', fps, hw, hu, hc, -, hlen⟩ :=
            ih ⟨mem w.fp, w.fp, pc, depth, stack⟩ hlo' hal hrounds fun _ => by
              simp only
              omega
          refine ⟨w', fps, hw, hu, hc.cons hfp hup, ?_⟩
          simp only [List.length_cons] at hlen ⊢
          omega
        simp only [if_neg hb]
        by_cases hpc : mem (w.fp + 8) = w.pc
        · obtain ⟨w', fps, hw, hu, hc, hlen⟩ := hgo (mem (w.fp + 8)) w.depth w.stack
          rw [if_neg (not_not.2 hpc), if_neg (not_not.2 hpc), hw, hu]
          exact ⟨w', w.fp :: fps, rfl, rfl, hc, fun _ => hv.1, hlen⟩
        · obtain ⟨stack, hstack⟩ : ∃ a, write? w.stack w.depth (mem (w.fp + 8)) = some a :=
            ⟨_, dif_pos (lt_of_lt_of_le hd hmax)⟩
          obtain ⟨w', fps, hw, hu, hc, hlen⟩ := hgo (mem (w.fp + 8)) (w.depth + 1) stack
          rw [if_pos hpc, if_pos hpc, hstack, Option.bind_some, Option.bind_eq_bind,
            Option.bind_some, hw, hu]
          exact ⟨w', w.fp :: fps, rfl, rfl, hc, fun _ => hv.1, hlen⟩
    · rw [walkLoop, unwindLoop, sub?_top hst, Option.bind_eq_bind, Option.bind_some]
      refine ⟨w, [], ?_, if_neg hv, Climbs.nil _, fun h => absurd rfl h, Nat.zero_le _⟩
      exact if_neg fun h => hv ⟨⟨h.1, h.2.1⟩, h.2.2⟩

theorem unwindLoop_mono {rounds rounds' : ℕ} (h : rounds ≤ rounds') {w w' : Walk n}
    (e : unwindLoop mem st maxDepth rounds w = some w') :
    unwindLoop mem st maxDepth rounds' w = some w' := by
  induction rounds generalizing rounds' w with
  | zero => simp [unwindLoop] at e
  | succ rounds ih =>
    obtain ⟨rounds', rfl⟩ : ∃ k, rounds' = k + 1 := ⟨rounds' - 1, by omega⟩
    have h : rounds ≤ rounds' := by omega
    rw [unwindLoop] at e ⊢
    by_cases hv : isValid w.fp st w.sb ∧ w.depth < maxDepth
    · rw [if_pos hv] at e ⊢
      by_cases hb : broken (mem w.fp) w.fp
      · simp only [hb, if_true] at e ⊢
        exact e
      · simp only [hb, if_false] at e ⊢
        by_cases hpc : mem (w.fp + 8) = w.pc
        · simp only [hpc, ne_eq, not_true_eq_false, if_false] at e ⊢
          exact ih h e
        · simp only [hpc, ne_eq, not_false_eq_true, if_true] at e ⊢
          obtain ⟨a, ha, e⟩ := Option.bind_eq_some_iff.1 e
          exact Option.bind_eq_some_iff.2 ⟨a, ha, ih h e⟩
    · rw [if_neg hv] at e ⊢
      exact e

theorem writes?_apply {a a' : Fin n → Word} {i : ℕ} {l : List Word} (h : writes? a i l = some a')
    (k : Fin n) : a' k = if k.1 < i then a k else l.getD (k.1 - i) (a k) := by
  induction l generalizing a i with
  | nil =>
    obtain rfl := Option.some.inj h
    simp
  | cons v l ih =>
    obtain ⟨b, hb, h⟩ := Option.bind_eq_some_iff.1 h
    unfold write? at hb
    split at hb
    · next hi =>
      obtain rfl := Option.some.inj hb
      rw [ih h]
      rcases lt_trichotomy k.1 i with hk | hk | hk
      · have hne : k ≠ ⟨i, hi⟩ := fun e => by simp [e] at hk
        rw [if_pos hk, if_pos (by omega), Function.update_of_ne hne]
      · obtain rfl : k = ⟨i, hi⟩ := Fin.ext hk
        simp
      · have hne : k ≠ ⟨i, hi⟩ := fun e => by simp [e] at hk
        have hs : k.1 - i = k.1 - (i + 1) + 1 := by omega
        rw [if_neg (by omega), if_neg (by omega), Function.update_of_ne hne, hs,
          List.getD_cons_succ]
    · simp at hb

end walk

/-- **The walk** of a stack that has room for a frame, from an aligned address
    into an array of at least `maxDepth` slots: no read leaves the stack and no
    addition wraps around, the frame pointers climb, there are at most as many
    rounds as the stack has room for frames, and the slots it fills hold the
    entries of the stack. -/
theorem walk_spec {maxDepth k : ℕ} (s : Stack) (stack : Fin (maxDepth + k) → Word)
    (hst : s.sb.toNat + 16 ≤ s.st.toNat) (hfp : s.fp &&& 0xf = 0) :
    ∃ w fps, walkLoop s.mem s.sb s.st maxDepth ((s.st.toNat - s.sb.toNat) / 16 + 1)
        ⟨s.fp, s.sb, 0, 0, stack⟩ = some (w, fps) ∧
      unwindBacktrace s stack maxDepth = some (w.depth, w.stack) ∧
      fps.length ≤ (s.st.toNat - s.sb.toNat) / 16 ∧ Climbs s.fp fps ∧
      w.depth = (s.entries.take maxDepth).length ∧ w.depth ≤ maxDepth ∧
      ∀ i, w.stack i = (s.entries.take maxDepth).getD i.1 (stack i) := by
  have hround : s.sb < s.fp →
      (s.st.toNat - s.fp.toNat) / 16 ≤ (s.st.toNat - s.sb.toNat) / 16 := by
    intro h
    rw [BitVec.lt_def] at h
    omega
  obtain ⟨w, fps, hw, hu, hclimb, hnil, hlen⟩ :=
    walkLoop_eq s.mem s.sb s.st (by omega) (Nat.le_add_right maxDepth k)
      ⟨s.fp, s.sb, 0, 0, stack⟩ (BitVec.le_refl _) hfp (Nat.succ_pos _)
      fun h => Nat.lt_succ_of_le (hround h)
  have hmax : (s.st.toNat - s.sb.toNat) / 16 + 1 ≤ 2 ^ 64 := by omega
  have hrun : unwindBacktrace s stack maxDepth = some (w.depth, w.stack) := by
    rw [unwindBacktrace, unwindLoop_mono hmax hu]
    rfl
  have hwrite := hrun
  rw [unwindBacktrace_eq] at hwrite
  obtain ⟨a, ha, e⟩ := Option.map_eq_some_iff.1 hwrite
  obtain ⟨hd, rfl⟩ := Prod.mk.inj e
  refine ⟨w, fps, hw, hrun, ?_, hclimb, hd.symm, ?_, ?_⟩
  · by_cases hf : fps = []
    · simp [hf]
    · exact hlen.trans (hround (hnil hf))
  · rw [← hd]
    exact List.length_take_le _ _
  · intro i
    simpa using writes?_apply ha i

/-- A walk that writes three of the frames of `ladder`. -/
theorem walk_ladder : ∃ w fps, walkLoop ladder.mem ladder.sb ladder.st 3 257
    ⟨ladder.fp, ladder.sb, 0, 0, fun _ : Fin 3 => 0⟩ = some (w, fps) ∧ w.depth ≤ 3 := by
  obtain ⟨w, fps, hw, -, -, -, -, hd, -⟩ :=
    walk_spec ladder (fun _ : Fin (3 + 0) => 0) (by decide) (by decide)
  exact ⟨w, fps, hw, hd⟩

/-! ## Captured frames -/

/-- The frames of a captured backtrace. -/
structure Captured where
  frames : List Word
  length_le : frames.length ≤ maxTraceDepth
  nonzero : ∀ v ∈ frames, v ≠ 0

namespace Captured

/-- The backtrace with these frames in an array that held `old` before. -/
def backtrace (k : Captured) (old : Trace) : Backtrace where
  depth := BitVec.ofNat 32 k.frames.length
  trace i := k.frames.getD i.1 (old i)

theorem depth_eq (k : Captured) (old : Trace) : (k.backtrace old).depth.toNat = k.frames.length := by
  have h16 : k.frames.length ≤ 16 := k.length_le
  simp only [backtrace, BitVec.toNat_ofNat]
  omega

theorem trace_eq (k : Captured) (old : Trace) (i : Fin maxTraceDepth) (h : i.1 < k.frames.length) :
    (k.backtrace old).trace i = k.frames[i.1] :=
  List.getD_eq_getElem _ _ h

theorem captured_eq (k : Captured) (old : Trace) : (k.backtrace old).captured = k.frames := by
  have hlen := k.length_le
  rw [Backtrace.captured, k.depth_eq old]
  refine List.ext_getElem (by rw [List.length_take, List.length_ofFn]; omega) fun i h₁ h₂ => ?_
  rw [List.getElem_take, List.getElem_ofFn]
  exact k.trace_eq old ⟨i, _⟩ h₂

end Captured

/-- **What the walk captures** are the entries of the stack, up to the depth of
    the configuration and one more. -/
theorem capture_eq {g : Configs} {s : Stack} {old : Trace} {bt : Backtrace}
    (h : capture g s old = some bt) (hnz : ∀ v ∈ s.entries, v ≠ 0) :
    ∃ k : Captured, k.frames = s.entries.take (g.depth + 1).toNat ∧ bt = k.backtrace old := by
  have hfit := capture_depth h
  obtain ⟨⟨d, t⟩, hu, rfl⟩ := Option.map_eq_some_iff.1 h
  have hlen := (unwindBacktrace_isSome s old _).1 (Option.isSome_of_mem hu)
  rw [← List.length_take] at hlen
  rw [unwindBacktrace_eq] at hu
  obtain ⟨a, ha, e⟩ := Option.map_eq_some_iff.1 hu
  obtain ⟨rfl, rfl⟩ := Prod.mk.inj e
  refine ⟨⟨s.entries.take (g.depth + 1).toNat, hlen, fun v hv => hnz v (List.mem_of_mem_take hv)⟩,
    rfl, ?_⟩
  have ht : a = fun i => (s.entries.take (g.depth + 1).toNat).getD i.1 (old i) := by
    ext1 i
    simpa using writes?_apply ha i
  rw [ht]
  rfl

/-! ## Storing them -/

/-- The slots of the array that `insert` copies. -/
def Backtrace.copied (bt : Backtrace) : List ℕ := (List.range bt.storedDepth).map (2 + ·)

/-- A node filled with the frames `k` lists those from the third on, `insert`
    copies no slot behind them, and `write_trace` prints a line for each. -/
structure StoresFrames (k : Captured) : Prop where
  copied : ∀ old, ∀ i ∈ (k.backtrace old).copied, i < k.frames.length
  insert : ∀ (old : Trace) (c : MemoryCache) (address size : Word) (pool : AllocPool) (p : Ptr),
    c.allocCache.apply = (pool, some p) → ∃ c', c.insert address size (k.backtrace old) = some c' ∧
      (c'.allocCache.mCache p).trace.frames = some (k.frames.drop 2) ∧
      ∀ env, ∃ lines, writeTrace env (c'.allocCache.mCache p) =
          some (blockText address (size.setWidth 32) lines) ∧
        lines = (k.frames.drop 2).map (lineOf env) ∧ lines.length = k.frames.length - 2

/-- With three frames the backtrace is full. -/
def Captured.full (k : Captured) (old : Trace) (h : 2 < k.frames.length) : FullBacktrace where
  toBacktrace := k.backtrace old
  three_le := by rwa [k.depth_eq old]
  le_max := (k.depth_eq old).trans_le k.length_le
  nonzero i hi := by
    rw [k.depth_eq old] at hi
    rw [k.trace_eq old i hi]
    exact k.nonzero _ (List.getElem_mem hi)

theorem Captured.stored_eq (k : Captured) (old : Trace) (h : 2 < k.frames.length) :
    (k.backtrace old).stored = k.frames.drop 2 := by
  rw [← k.captured_eq old]
  exact (k.full old h).stored_eq

/-- With fewer, the third slot is listed, whatever it held. -/
theorem Captured.stored_shallow (k : Captured) (old : Trace) (h : ¬ 2 < k.frames.length) :
    (k.backtrace old).stored = [old 2].takeWhile (· ≠ 0) := by
  have hd : (k.backtrace old).storedDepth = 1 := by
    rw [Backtrace.storedDepth_eq, k.depth_eq old, if_neg h]
  have hslot : (k.backtrace old).trace 2 = old 2 := List.getD_eq_default _ _ (not_lt.1 h)
  rw [Backtrace.stored, hd, ← hslot]
  rfl

/-- What `insert` fills a node with. -/
theorem insert_node {c c' : MemoryCache} {address size : Word} {bt : Backtrace} {pool : AllocPool}
    {p : Ptr} (hp : c.allocCache.apply = (pool, some p)) (h : c.insert address size bt = some c') :
    (c'.allocCache.mCache p).addr = address ∧
      (c'.allocCache.mCache p).size = size.setWidth 32 ∧
      (c'.allocCache.mCache p).trace.frames = some bt.stored := by
  rw [MemoryCache.insert, hp] at h
  obtain ⟨t, ht, h⟩ := Option.bind_eq_some_iff.1 h
  obtain rfl := Option.some.inj h
  simp [Backtrace.frames_store ht]

/-- **A node lists the frames from the third on iff there is a third one.** -/
theorem storesFrames_iff (k : Captured) : StoresFrames k ↔ 2 < k.frames.length := by
  constructor
  · intro h
    have hcopied := h.copied (fun _ => 0) 2
    simp only [Backtrace.copied, List.mem_map, List.mem_range] at hcopied
    refine hcopied ⟨0, ?_, rfl⟩
    rw [Backtrace.storedDepth_eq]
    split_ifs <;> omega
  · intro h
    constructor
    case copied =>
      intro old i hi
      simp only [Backtrace.copied, List.mem_map, List.mem_range, Backtrace.storedDepth_eq,
        k.depth_eq old, if_pos h] at hi
      omega
    case insert =>
      intro old c address size pool p hp
      have hfit : (k.backtrace old).depth.toNat ≤ maxTraceDepth := (k.full old h).le_max
      obtain ⟨c', hins, -⟩ := insert_inside hfit c address size
      obtain ⟨haddr, hsize, hframes⟩ := insert_node hp hins
      rw [k.stored_eq old h] at hframes
      refine ⟨c', hins, hframes, fun env => ⟨_, ?_, rfl, by simp⟩⟩
      rw [writeTrace, hframes, haddr, hsize]
      rfl

/-- Code called without a frame pointer: a single frame. -/
def lone : Captured := ⟨[0x4000], by decide, by simp⟩

/-- **A node filled with a single frame** lists what the third slot of the array
    held before. -/
theorem storesFrames_lone : ¬ StoresFrames lone := by
  intro h
  obtain ⟨pool, hp⟩ : ∃ pool, MemoryCache.blank.allocCache.apply = (pool, some 0) := ⟨_, rfl⟩
  obtain ⟨c', hins, hframes, -⟩ := h.insert (fun _ => 0x1234) .blank 0x7000 64 pool 0 hp
  obtain ⟨-, -, hnode⟩ := insert_node hp hins
  rw [hnode, lone.stored_shallow _ (by decide)] at hframes
  exact absurd hframes (by decide)

end Raphael
