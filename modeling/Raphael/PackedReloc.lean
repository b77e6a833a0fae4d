/-
  Packed relocations (xh_elf.c).

  `.rela.android` holds groups of relocations as a stream of signed LEB128
  numbers.  A group gives what its relocations share (the flags say what), each
  relocation the rest; offsets and addends are differences to the relocation
  before.

  * `packedNext` is the iterator, `packedRelocs` what a loop over it sees until it ends.
  * `Group.numbers` is the format, and `meaning` what the groups stand for.
  * `relocs_eq`: from every stream of groups the iterator hands out what they
    stand for; `relocs_pack`: every list of relocations can be packed so; both are
    `packed_spec`.
-/
import Raphael.Lib.Sleb128
import Mathlib.Data.List.Basic

namespace Raphael

namespace XhElf

open Sleb128 (Byte)

variable {w : ℕ}

/-- `ElfW(Rela)`, or `ElfW(Rel)`, which has no addend. -/
structure Reloc (w : ℕ) where
  rOffset : BitVec w
  rInfo : BitVec w
  rAddend : Option (BitVec w)
  deriving DecidableEq

/-- `xh_elf_sleb128_decoder_next`, where the decoder is the bytes from `cur` to
    `end` -/
def decoderNext (decoder : List Byte) : Option (BitVec w × List Byte) := Sleb128.decode 0 0 decoder

/-- `xh_elf_packed_reloc_iterator_t` -/
structure PackedIterator (w : ℕ) where
  decoder : List Byte
  relocationCount : BitVec w
  groupSize : BitVec w
  groupFlags : BitVec w
  groupROffsetDelta : BitVec w
  relocationIndex : BitVec w
  relocationGroupIndex : BitVec w
  rOffset : BitVec w
  rInfo : BitVec w
  rAddend : BitVec w
  isUseRela : Bool

/-! ## Flags -/

/-- `RELOCATION_GROUPED_BY_INFO_FLAG` -/
def groupedByInfo (flags : BitVec w) : Bool := flags &&& 1 != 0

/-- `RELOCATION_GROUPED_BY_OFFSET_DELTA_FLAG` -/
def groupedByOffsetDelta (flags : BitVec w) : Bool := flags &&& 2 != 0

/-- `RELOCATION_GROUPED_BY_ADDEND_FLAG` -/
def groupedByAddend (flags : BitVec w) : Bool := flags &&& 4 != 0

/-- `RELOCATION_GROUP_HAS_ADDEND_FLAG` -/
def groupHasAddend (flags : BitVec w) : Bool := flags &&& 8 != 0

/-! ## Iterator -/

/-- After the `memset`. -/
def PackedIterator.zero (decoder : List Byte) (isUseRela : Bool) : PackedIterator w :=
  ⟨decoder, 0, 0, 0, 0, 0, 0, 0, 0, 0, isUseRela⟩

/-- `xh_elf_packed_reloc_iterator_init`; its caller ignores the error. -/
def packedInit (rel : List Byte) (isUseRela : Bool) : PackedIterator w :=
  match decoderNext rel with
  | none => .zero [] isUseRela
  | some (relocationCount, decoder) =>
    match decoderNext decoder with
    | none => { PackedIterator.zero [] isUseRela with relocationCount }
    | some (rOffset, decoder) =>
      { PackedIterator.zero decoder isUseRela with relocationCount, rOffset }

/-- The next number if there is one here, `old` otherwise. -/
def decoderNextIf (c : Bool) (old : BitVec w) (decoder : List Byte) : Option (BitVec w × List Byte) :=
  if c then decoderNext decoder else some (old, decoder)

/-- `xh_elf_packed_reloc_iterator_read_group_fields` -/
def readGroupFields (self : PackedIterator w) : Option (PackedIterator w) := do
  let (groupSize, d) ← decoderNext self.decoder
  let (groupFlags, d) ← decoderNext d
  let (groupROffsetDelta, d) ← decoderNextIf (groupedByOffsetDelta groupFlags) self.groupROffsetDelta d
  let (rInfo, d) ← decoderNextIf (groupedByInfo groupFlags) self.rInfo d
  let self := { self with groupSize, groupFlags, groupROffsetDelta, rInfo, relocationGroupIndex := 0 }
  if groupHasAddend groupFlags && groupedByAddend groupFlags then
    if !self.isUseRela then none
    else
      let (val, d) ← decoderNext d
      some { self with decoder := d, rAddend := self.rAddend + val }
  else if !groupHasAddend groupFlags then some { self with decoder := d, rAddend := 0 }
  else some { self with decoder := d }

/-- `xh_elf_packed_reloc_iterator_next`, inside a group -/
def nextInGroup (self : PackedIterator w) : Option (Reloc w × PackedIterator w) := do
  let (val, d) ←
    decoderNextIf (!groupedByOffsetDelta self.groupFlags) self.groupROffsetDelta self.decoder
  let rOffset := self.rOffset + val
  let (rInfo, d) ← decoderNextIf (!groupedByInfo self.groupFlags) self.rInfo d
  let (val, d) ← decoderNextIf (self.isUseRela && groupHasAddend self.groupFlags &&
    !groupedByAddend self.groupFlags) 0 d
  let rAddend := self.rAddend + val
  some (⟨rOffset, rInfo, if self.isUseRela then some rAddend else none⟩,
    { self with
      decoder := d, rOffset, rInfo, rAddend
      relocationIndex := self.relocationIndex + 1
      relocationGroupIndex := self.relocationGroupIndex + 1 })

/-- `xh_elf_packed_reloc_iterator_next`; behind `NULL` nothing is read. -/
def packedNext (self : PackedIterator w) : Option (Reloc w × PackedIterator w) :=
  if self.relocationCount ≤ self.relocationIndex then none
  else if self.relocationGroupIndex = self.groupSize then
    (readGroupFields self).bind nextInGroup
  else nextInGroup self

/-- The first relocations that the iterator hands out, `k` at most. -/
def packedTake : ℕ → PackedIterator w → List (Reloc w)
  | 0, _ => []
  | k + 1, self =>
    match packedNext self with
    | none => []
    | some (r, self) => r :: packedTake k self

/-- What a loop over the iterator sees until it answers `NULL`. -/
def packedRelocs (self : PackedIterator w) : List (Reloc w) :=
  packedTake (self.relocationCount.toNat + 1) self

/-! ## Format -/

/-- The numbers of one relocation, those that its group gives included. -/
structure Entry (w : ℕ) where
  offsetDelta : BitVec w
  info : BitVec w
  addendDelta : BitVec w

structure Group (w : ℕ) where
  flags : BitVec w
  /-- for all relocations, as the flags say -/
  shared : Entry w
  entries : List (Entry w)
  nonempty : entries ≠ []
  size : entries.length < 2 ^ w

namespace Group
variable (g : Group w)

/-- The numbers in front of the relocations. -/
def header : List (BitVec w) :=
  [BitVec.ofNat w g.entries.length, g.flags] ++
  (if groupedByOffsetDelta g.flags then [g.shared.offsetDelta] else []) ++
  (if groupedByInfo g.flags then [g.shared.info] else []) ++
  (if groupHasAddend g.flags && groupedByAddend g.flags then [g.shared.addendDelta] else [])

/-- The numbers of one relocation. -/
def body (e : Entry w) : List (BitVec w) :=
  (if !groupedByOffsetDelta g.flags then [e.offsetDelta] else []) ++
  (if !groupedByInfo g.flags then [e.info] else []) ++
  (if groupHasAddend g.flags && !groupedByAddend g.flags then [e.addendDelta] else [])

def numbers : List (BitVec w) := g.header ++ g.entries.flatMap g.body

/-- Only `Rela` has addends. -/
def Ok (rela : Bool) : Prop := groupHasAddend g.flags → rela

end Group

/-- Offset and addend of the relocation before. -/
structure Before (w : ℕ) where
  offset : BitVec w
  addend : BitVec w

namespace Group
variable (g : Group w) (rela : Bool)

/-- The addend that a group starts from. -/
def enter (b : Before w) : Before w where
  offset := b.offset
  addend :=
    if !groupHasAddend g.flags then 0
    else if groupedByAddend g.flags then b.addend + g.shared.addendDelta
    else b.addend

/-- Offset and addend of a relocation. -/
def after (b : Before w) (e : Entry w) : Before w where
  offset := b.offset + if groupedByOffsetDelta g.flags then g.shared.offsetDelta else e.offsetDelta
  addend :=
    if groupHasAddend g.flags && !groupedByAddend g.flags then b.addend + e.addendDelta
    else b.addend

/-- A relocation, with its offset and addend. -/
def reloc (b : Before w) (e : Entry w) : Reloc w where
  rOffset := b.offset
  rInfo := if groupedByInfo g.flags then g.shared.info else e.info
  rAddend := if rela then some b.addend else none

/-- The relocations behind `b`, and what is before those of the next group. -/
def relocs : Before w → List (Entry w) → List (Reloc w) × Before w
  | b, [] => ([], b)
  | b, e :: es =>
    let b := g.after b e
    let (rs, b') := relocs b es
    (g.reloc rela b e :: rs, b')

end Group

/-- What the groups stand for. -/
def meaning (rela : Bool) : Before w → List (Group w) → List (Reloc w)
  | _, [] => []
  | b, g :: gs =>
    let (rs, b) := g.relocs rela (g.enter b) g.entries
    rs ++ meaning rela b gs

/-- All the numbers. -/
def stream (offset : BitVec w) (gs : List (Group w)) : List (BitVec w) :=
  BitVec.ofNat w (gs.map fun g => g.entries.length).sum :: offset :: gs.flatMap Group.numbers

/-- The bytes are the numbers, one after the other, with `rest` behind them. -/
def Numbers (rest : List Byte) : List (BitVec w) → List Byte → Prop
  | [], bytes => bytes = rest
  | v :: vs, bytes => ∃ bs tail, bytes = bs ++ tail ∧ Sleb128.Reads bs v ∧ Numbers rest vs tail

/-! ## Reading numbers -/

section
variable {rest : List Byte} {v : BitVec w} {vs vs' : List (BitVec w)} {bytes : List Byte}

theorem Numbers.next (h : Numbers rest (v :: vs) bytes) :
    ∃ tail, decoderNext bytes = some (v, tail) ∧ Numbers rest vs tail := by
  obtain ⟨bs, tail, rfl, hr, ht⟩ := h
  exact ⟨tail, hr.decode tail, ht⟩

/-- A number that is there if `c` holds. -/
theorem Numbers.nextIf {c : Bool} (old : BitVec w)
    (h : Numbers rest ((if c then [v] else []) ++ vs) bytes) :
    ∃ tail, decoderNextIf c old bytes = some (if c then v else old, tail) ∧ Numbers rest vs tail := by
  cases c with
  | false => exact ⟨bytes, rfl, h⟩
  | true => exact h.next

end

/-! ## Groups -/

/-- Inside a group, where `n` relocations are to come. -/
structure In (it : PackedIterator w) (rela : Bool) (g : Group w) (b : Before w) (n : ℕ) : Prop where
  flags : it.groupFlags = g.flags
  info : groupedByInfo g.flags → it.rInfo = g.shared.info
  delta : groupedByOffsetDelta g.flags → it.groupROffsetDelta = g.shared.offsetDelta
  before : (⟨it.rOffset, it.rAddend⟩ : Before w) = b
  rela : it.isUseRela = rela
  left : it.relocationGroupIndex + BitVec.ofNat w n = it.groupSize

section
variable {self : PackedIterator w} {rela : Bool} {g : Group w} {b : Before w} {rest : List Byte}
  {e : Entry w} {n : ℕ} {vs : List (BitVec w)}

/-- **The numbers in front of a group.** -/
theorem readGroupFields_spec (hr : self.isUseRela = rela) (hg : g.Ok rela)
    (h : Numbers rest (g.header ++ vs) self.decoder) :
    ∃ self', readGroupFields self = some self' ∧ Numbers rest vs self'.decoder ∧
      In self' rela g (g.enter ⟨self.rOffset, self.rAddend⟩) g.entries.length ∧
      self'.relocationCount = self.relocationCount ∧ self'.relocationIndex = self.relocationIndex := by
  simp only [Group.header, List.cons_append, List.nil_append, List.append_assoc] at h
  obtain ⟨d₁, h₁, h⟩ := h.next
  obtain ⟨d₂, h₂, h⟩ := h.next
  obtain ⟨d₃, h₃, h⟩ := h.nextIf self.groupROffsetDelta
  obtain ⟨d₄, h₄, h⟩ := h.nextIf self.rInfo
  simp only [readGroupFields, h₁, h₂, h₃, h₄, Option.bind_eq_bind, Option.bind_some]
  have hleft : (0 : BitVec w) + BitVec.ofNat w g.entries.length = BitVec.ofNat w g.entries.length :=
    BitVec.zero_add _
  cases ha : groupHasAddend g.flags with
  | false =>
    simp only [ha, Bool.false_and, Bool.false_eq_true, if_false, List.nil_append] at h
    refine ⟨_, rfl, h, ⟨rfl, fun h => if_pos h, fun h => if_pos h, ?_, hr, hleft⟩, rfl, rfl⟩
    rw [Group.enter, ha]
    rfl
  | true =>
    cases hb : groupedByAddend g.flags with
    | false =>
      simp only [ha, hb, Bool.and_false, Bool.false_eq_true, if_false, List.nil_append] at h
      refine ⟨_, rfl, h, ⟨rfl, fun h => if_pos h, fun h => if_pos h, ?_, hr, hleft⟩, rfl, rfl⟩
      rw [Group.enter, ha, hb]
      rfl
    | true =>
      simp only [ha, hb, Bool.and_true, if_true, List.cons_append, List.nil_append] at h
      obtain ⟨d₅, h₅, h⟩ := h.next
      simp only [hr, hg ha, h₅, Bool.and_true, if_true, Bool.not_true, Bool.false_eq_true, if_false,
        Option.bind_some]
      refine ⟨_, rfl, h, ⟨rfl, fun h => if_pos h, fun h => if_pos h, ?_, rfl, hleft⟩, rfl, rfl⟩
      rw [Group.enter, ha, hb]
      rfl

/-- **One relocation of a group.** -/
theorem nextInGroup_spec (hi : In self rela g b (n + 1)) (hg : g.Ok rela)
    (h : Numbers rest (g.body e ++ vs) self.decoder) :
    ∃ self', nextInGroup self = some (g.reloc rela (g.after b e) e, self') ∧
      Numbers rest vs self'.decoder ∧ In self' rela g (g.after b e) n ∧
      self'.relocationCount = self.relocationCount ∧
      self'.relocationIndex = self.relocationIndex + 1 := by
  obtain ⟨hf, hinfo, hdelta, rfl, rfl, hleft⟩ := hi
  simp only [Group.body, List.append_assoc] at h
  obtain ⟨d₁, h₁, h⟩ := h.nextIf self.groupROffsetDelta
  obtain ⟨d₂, h₂, h⟩ := h.nextIf self.rInfo
  obtain ⟨d₃, h₃, h⟩ := h.nextIf 0
  have hc : (self.isUseRela && groupHasAddend g.flags && !groupedByAddend g.flags) =
      (groupHasAddend g.flags && !groupedByAddend g.flags) := by
    cases ha : groupHasAddend g.flags with
    | false => simp
    | true => rw [hg ha, Bool.true_and]
  have hoffset : self.rOffset +
      (if (!groupedByOffsetDelta g.flags) = true then e.offsetDelta else self.groupROffsetDelta) =
      (g.after ⟨self.rOffset, self.rAddend⟩ e).offset := by
    cases ho : groupedByOffsetDelta g.flags with
    | false => simp [Group.after, ho]
    | true => simp [Group.after, ho, hdelta ho]
  have hrInfo : (if (!groupedByInfo g.flags) = true then e.info else self.rInfo) =
      if groupedByInfo g.flags = true then g.shared.info else e.info := by
    cases hi : groupedByInfo g.flags with
    | false => rfl
    | true => exact hinfo hi
  have haddend : self.rAddend +
      (if (groupHasAddend g.flags && !groupedByAddend g.flags) = true then e.addendDelta else 0) =
      (g.after ⟨self.rOffset, self.rAddend⟩ e).addend := by
    rw [Group.after]
    split
    · rfl
    · exact BitVec.add_zero _
  rw [nextInGroup, hf, h₁]
  simp only [Option.bind_eq_bind, Option.bind_some, h₂, hc, h₃, hoffset, hrInfo, haddend]
  refine ⟨_, rfl, h, ⟨rfl, fun h => if_pos h, hdelta, rfl, rfl, ?_⟩, rfl, rfl⟩
  rw [← hleft, BitVec.ofNat_add, BitVec.add_comm (BitVec.ofNat w n), ← BitVec.add_assoc]
  rfl

theorem In.unfinished (hi : In self rela g b (n + 1)) (hn : n + 1 < 2 ^ w) :
    self.relocationGroupIndex ≠ self.groupSize := by
  intro he
  have hleft := hi.left
  rw [← he] at hleft
  have h0 : (BitVec.ofNat w (n + 1)).toNat = 0 := by
    rw [BitVec.add_right_eq_self.1 hleft]
    exact Nat.zero_mod _
  rw [BitVec.toNat_ofNat, Nat.mod_eq_of_lt hn] at h0
  cases h0

theorem In.finished (hi : In self rela g b 0) : self.relocationGroupIndex = self.groupSize := by
  rw [← hi.left]
  exact (BitVec.add_zero _).symm

/-- How many relocations are to come. -/
def PackedIterator.Left (self : PackedIterator w) (n : ℕ) : Prop :=
  self.relocationIndex.toNat + n = self.relocationCount.toNat

theorem PackedIterator.Left.lt (h : self.Left (n + 1)) :
    self.relocationIndex < self.relocationCount := by
  rw [BitVec.lt_def]
  unfold Left at h
  omega

theorem PackedIterator.Left.next {self' : PackedIterator w} (h : self.Left (n + 1))
    (hc : self'.relocationCount = self.relocationCount)
    (hi : self'.relocationIndex = self.relocationIndex + 1) : self'.Left n := by
  have hlt := self.relocationCount.isLt
  unfold Left at h ⊢
  have hs : self.relocationIndex.toNat + 1 < 2 ^ w := by omega
  rw [hc, hi, BitVec.toNat_add, BitVec.ofNat_eq_ofNat, BitVec.toNat_ofNat, Nat.add_mod_mod,
    Nat.mod_eq_of_lt hs]
  omega

theorem packedTake_done (h : self.Left 0) (k : ℕ) : packedTake k self = [] := by
  cases k with
  | zero => rfl
  | succ k =>
    have hn : packedNext self = none := by
      rw [packedNext, if_pos]
      rw [BitVec.le_def]
      exact h.ge
    rw [packedTake, hn]

/-- **The relocations of a group, one after the other.** -/
theorem packedTake_entries {es : List (Entry w)} {m : ℕ} (hg : g.Ok rela)
    (hi : In self rela g b es.length) (hn : es.length < 2 ^ w)
    (h : Numbers rest (es.flatMap g.body ++ vs) self.decoder) (hl : self.Left (es.length + m)) (k : ℕ) :
    ∃ self', packedTake (es.length + k) self = (g.relocs rela b es).1 ++ packedTake k self' ∧
      Numbers rest vs self'.decoder ∧ In self' rela g (g.relocs rela b es).2 0 ∧ self'.Left m := by
  induction es generalizing self b with
  | nil => exact ⟨self, by rw [List.length_nil, Nat.zero_add]; rfl, h, hi, by simpa using hl⟩
  | cons e es ih =>
    rw [List.length_cons] at hi hn
    rw [List.flatMap_cons, List.append_assoc] at h
    obtain ⟨self₁, h₁, hd₁, hi₁, hc₁, hx₁⟩ := nextInGroup_spec hi hg h
    have hl' : self.Left (es.length + m + 1) := by
      rwa [List.length_cons, Nat.add_right_comm] at hl
    obtain ⟨self', ht, hd, hi', hm⟩ := ih hi₁ (by omega) hd₁ (hl'.next hc₁ hx₁)
    refine ⟨self', ?_, hd, hi', hm⟩
    have hnext : packedNext self = some (g.reloc rela (g.after b e) e, self₁) := by
      rw [packedNext, if_neg (BitVec.not_le.2 hl'.lt), if_neg (hi.unfinished hn), h₁]
    rw [List.length_cons, Nat.add_right_comm, packedTake, hnext]
    exact congrArg _ ht

/-- At the end of a group the next one is entered first. -/
theorem packedTake_enter {self' : PackedIterator w} (hf : self.relocationGroupIndex = self.groupSize)
    (he : readGroupFields self = some self') (hc : self'.relocationCount = self.relocationCount)
    (hx : self'.relocationIndex = self.relocationIndex)
    (hu : self'.relocationGroupIndex ≠ self'.groupSize) (k : ℕ) :
    packedTake k self = packedTake k self' := by
  cases k with
  | zero => rfl
  | succ k =>
    have hnext : packedNext self = packedNext self' := by
      rw [packedNext, packedNext, hc, hx, if_pos hf, if_neg hu, he, Option.bind_some]
    rw [packedTake, packedTake, hnext]

/-- **All groups.** -/
theorem packedTake_groups {gs : List (Group w)} (hg : ∀ g ∈ gs, g.Ok rela)
    (hf : self.relocationGroupIndex = self.groupSize) (hr : self.isUseRela = rela)
    (h : Numbers rest (gs.flatMap Group.numbers) self.decoder)
    (hl : self.Left (gs.map fun g => g.entries.length).sum) (k : ℕ) :
    packedTake ((gs.map fun g => g.entries.length).sum + k) self =
      meaning rela ⟨self.rOffset, self.rAddend⟩ gs := by
  induction gs generalizing self with
  | nil =>
    rw [packedTake_done hl]
    rfl
  | cons g gs ih =>
    have hgo := hg g List.mem_cons_self
    rw [List.flatMap_cons, Group.numbers, List.append_assoc] at h
    rw [List.map_cons, List.sum_cons] at hl ⊢
    obtain ⟨self₁, h₁, hd₁, hi₁, hc₁, hx₁⟩ := readGroupFields_spec hr hgo h
    have hl₁ : self₁.Left (g.entries.length + (gs.map fun g => g.entries.length).sum) := by
      rwa [PackedIterator.Left, hc₁, hx₁]
    obtain ⟨self₂, h₂, hd₂, hi₂, hl₂⟩ := packedTake_entries hgo hi₁ g.size hd₁ hl₁
      ((gs.map fun g => g.entries.length).sum + k)
    have hu : self₁.relocationGroupIndex ≠ self₁.groupSize := by
      obtain ⟨n, hn⟩ := Nat.exists_eq_add_one.2 (List.length_pos_iff.2 g.nonempty)
      have hsize := g.size
      rw [hn] at hi₁ hsize
      exact hi₁.unfinished hsize
    have hrest := ih (fun g' h' => hg g' (List.mem_cons_of_mem g h')) hi₂.finished hi₂.rela hd₂ hl₂
    rw [packedTake_enter hf h₁ hc₁ hx₁ hu, Nat.add_assoc, h₂, hrest, hi₂.before]
    rfl

/-- **The iterator hands out what the groups stand for.** -/
theorem relocs_eq (gs : List (Group w)) {offset : BitVec w} {bytes : List Byte}
    (hg : ∀ g ∈ gs, g.Ok rela) (hn : (gs.map fun g => g.entries.length).sum < 2 ^ w)
    (h : Numbers rest (stream offset gs) bytes) :
    packedRelocs (packedInit bytes rela) = meaning rela ⟨offset, 0⟩ gs := by
  obtain ⟨d₁, h₁, h⟩ := h.next
  obtain ⟨d₂, h₂, h⟩ := h.next
  have he : packedInit bytes rela = { PackedIterator.zero d₂ rela with
      relocationCount := BitVec.ofNat w (gs.map fun g => g.entries.length).sum
      rOffset := offset } := by
    rw [packedInit, h₁]
    dsimp only
    rw [h₂]
  have hcount : (BitVec.ofNat w (gs.map fun g => g.entries.length).sum).toNat =
      (gs.map fun g => g.entries.length).sum := by
    rw [BitVec.toNat_ofNat, Nat.mod_eq_of_lt hn]
  rw [he, packedRelocs]
  dsimp only
  rw [hcount]
  refine packedTake_groups hg rfl rfl h ?_ 1
  show (0 : BitVec w).toNat + _ = BitVec.toNat _
  rw [hcount, BitVec.ofNat_eq_ofNat, BitVec.toNat_ofNat, Nat.zero_mod, Nat.zero_add]

end

/-! ## Packing -/

section
variable (rela : Bool)

/-- The differences between the relocations. -/
def differences : Before w → List (Reloc w) → List (Entry w)
  | _, [] => []
  | b, r :: rs =>
    let addend := r.rAddend.getD 0
    ⟨r.rOffset - b.offset, r.rInfo, addend - b.addend⟩ :: differences ⟨r.rOffset, addend⟩ rs

theorem differences_length (b : Before w) (rs : List (Reloc w)) :
    (differences b rs).length = rs.length := by
  induction rs generalizing b with
  | nil => rfl
  | cons r rs ih => rw [differences, List.length_cons, List.length_cons, ih]

/-- One group, whose relocations share nothing. -/
def plainGroup (rs : List (Reloc w)) (hne : rs ≠ []) (hn : rs.length < 2 ^ w) : Group w where
  flags := if rela then 8 else 0
  shared := ⟨0, 0, 0⟩
  entries := differences ⟨0, 0⟩ rs
  nonempty := by
    rw [← List.length_pos_iff, differences_length]
    exact List.length_pos_iff.2 hne
  size := by rwa [differences_length]

/-- Relocations as packed bytes. -/
def pack (rs : List (Reloc w)) (hn : rs.length < 2 ^ w) : List Byte :=
  (stream 0 (if hne : rs = [] then [] else [plainGroup rela rs hne hn])).flatMap Sleb128.encodeWord

theorem numbers_encodeWord (hw : 0 < w) (rest : List Byte) (vs : List (BitVec w)) :
    Numbers rest vs (vs.flatMap Sleb128.encodeWord ++ rest) := by
  induction vs with
  | nil => rfl
  | cons v vs ih =>
    exact ⟨Sleb128.encodeWord v, _, by rw [List.flatMap_cons, List.append_assoc],
      Sleb128.reads_encodeWord hw v, ih⟩

section
variable {rela} {rs : List (Reloc w)} (hne : rs ≠ []) (hn : rs.length < 2 ^ w)

theorem plainGroup_flags (hw : 4 ≤ w) :
    groupedByInfo (plainGroup rela rs hne hn).flags = false ∧
      groupedByOffsetDelta (plainGroup rela rs hne hn).flags = false ∧
      groupedByAddend (plainGroup rela rs hne hn).flags = false ∧
      groupHasAddend (plainGroup rela rs hne hn).flags = rela := by
  cases rela with
  | false => simp [plainGroup, groupedByInfo, groupedByOffsetDelta, groupedByAddend, groupHasAddend]
  | true =>
    have h8 (n : ℕ) : (8 : BitVec w) &&& BitVec.ofNat w n = BitVec.ofNat w (8 &&& n) :=
      BitVec.ofNat_and.symm
    have hne : BitVec.ofNat w 8 ≠ 0#w := by
      intro h
      have hlt : 2 ^ 4 ≤ 2 ^ w := Nat.pow_le_pow_right (by decide) hw
      have h := congrArg BitVec.toNat h
      rw [BitVec.toNat_ofNat, BitVec.toNat_ofNat, Nat.zero_mod, Nat.mod_eq_of_lt (by omega)] at h
      cases h
    refine ⟨?_, ?_, ?_, ?_⟩
    · exact bne_eq_false_iff_eq.2 (h8 1)
    · exact bne_eq_false_iff_eq.2 (h8 2)
    · exact bne_eq_false_iff_eq.2 (h8 4)
    · exact bne_iff_ne.2 fun h => hne ((h8 8).symm.trans h)

/-- What the differences stand for. -/
theorem relocs_differences {g : Group w} (hi : groupedByInfo g.flags = false)
    (ho : groupedByOffsetDelta g.flags = false) (hb : groupedByAddend g.flags = false)
    (ha : groupHasAddend g.flags = rela) {b : Before w} (hz : rela = false → b.addend = 0)
    (hs : ∀ r ∈ rs, r.rAddend.isSome = rela) :
    (g.relocs rela b (differences b rs)).1 = rs := by
  induction rs generalizing b with
  | nil => rfl
  | cons r rs ih =>
    obtain ⟨offset, info, addend⟩ := r
    have hr := hs _ List.mem_cons_self
    have hz' : rela = false → addend.getD 0 = 0 := by
      intro h
      cases addend with
      | none => rfl
      | some a => exact (Bool.false_ne_true (h.symm.trans hr.symm)).elim
    have hafter : g.after b ⟨offset - b.offset, info, addend.getD 0 - b.addend⟩ =
        ⟨offset, addend.getD 0⟩ := by
      rw [Group.after, ho, hb, ha]
      cases hrela : rela with
      | false =>
        rw [hz' hrela]
        simp [hz hrela]
      | true => simp
    have hreloc : g.reloc rela ⟨offset, addend.getD 0⟩
        ⟨offset - b.offset, info, addend.getD 0 - b.addend⟩ = ⟨offset, info, addend⟩ := by
      rw [Group.reloc, hi, ← hr]
      cases addend <;> rfl
    have hrs := ih (b := ⟨offset, addend.getD 0⟩) hz' fun r h => hs r (List.mem_cons_of_mem _ h)
    rw [differences, Group.relocs, hafter, hreloc]
    exact congrArg _ hrs

theorem plainGroup_relocs (hw : 4 ≤ w) (ha : ∀ r ∈ rs, r.rAddend.isSome = rela) :
    meaning rela ⟨0, 0⟩ [plainGroup rela rs hne hn] = rs := by
  obtain ⟨h₁, h₂, h₃, h₄⟩ := plainGroup_flags hne hn hw
  have he : (plainGroup rela rs hne hn).enter ⟨0, 0⟩ = ⟨0, 0⟩ := by
    rw [Group.enter, h₄, h₃]
    cases rela <;> rfl
  show ((plainGroup rela rs hne hn).relocs rela
    ((plainGroup rela rs hne hn).enter ⟨0, 0⟩) _).1 ++ [] = _
  rw [he, List.append_nil]
  exact relocs_differences h₁ h₂ h₃ h₄ (fun _ => rfl) ha

end

/-- **Every list of relocations can be packed, and the iterator hands it out again.** -/
theorem relocs_pack (hw : 4 ≤ w) {rs : List (Reloc w)} (ha : ∀ r ∈ rs, r.rAddend.isSome = rela)
    (hn : rs.length < 2 ^ w) (rest : List Byte) :
    packedRelocs (packedInit (pack rela rs hn ++ rest) rela) = rs := by
  have hnum (gs : List (Group w)) := numbers_encodeWord (by omega) rest (stream 0 gs)
  rw [pack]
  split
  next h =>
    rw [relocs_eq [] (by simp) (by simp) (hnum []), h]
    rfl
  next h =>
    rw [relocs_eq [plainGroup rela rs h hn] ?_ ?_ (hnum _), plainGroup_relocs h hn hw ha]
    · intro g hg ha
      rw [List.mem_singleton.1 hg, (plainGroup_flags h hn hw).2.2.2] at ha
      exact ha
    · rw [List.map_singleton, List.sum_singleton, plainGroup, differences_length]
      exact hn

/-- Two relocations that share their kind and the distance of 8 bytes. -/
def sampleGroup : Group 64 where
  flags := 0x0b
  shared := ⟨8, 0x401, 0⟩
  entries := [⟨0, 0, 5⟩, ⟨0, 0, -3⟩]
  nonempty := List.cons_ne_nil _ _
  size := by decide

end

end XhElf

end Raphael
