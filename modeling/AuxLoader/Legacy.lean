import AuxLoader.Loader

namespace AuxLoader

open Data

/-! The legacy image handler. -/

namespace Layout

variable (layout : Layout) (m : Machine)

/-! The header fields of the linked-in image. -/

def legacySize : Word :=
  m.mem.beWord (layout.kernelDataStart + LegacyImageHeader.ihSize)

def legacyLoad : Word :=
  m.mem.beWord (layout.kernelDataStart + LegacyImageHeader.ihLoad)

def legacyEp : Word :=
  m.mem.beWord (layout.kernelDataStart + LegacyImageHeader.ihEp)

def legacyPayload : Word := layout.kernelDataStart + LegacyImageHeader.size

/-- The payload that the header announces lies inside the image. -/
def LegacyFits : Prop :=
  64 + (layout.legacySize m).toNat ≤ layout.kernImageLen.toNat

/-- The unsigned subtraction of the size check does not mislead it. -/
def SizeCheckApplies : Prop :=
  64 ≤ layout.kernImageLen.toNat ∨
    2 ^ 32 - 64 + layout.kernImageLen.toNat < (layout.legacySize m).toNat

def handleLegacy : Option (Int × Machine) :=
  handleLegacyHeader layout.kernelDataStart layout.kernImageLen m

end Layout

section Legacy

variable {layout : Layout} {m : Machine}

theorem handleLegacy_eq :
    layout.handleLegacy m =
      if layout.kernImageLen - LegacyImageHeader.size < layout.legacySize m then
        some (-99, m)
      else
        (myMemcpy m.mem (layout.legacyLoad m) layout.legacyPayload
          (layout.legacySize m)).val.map fun mem =>
            (0, { m with mem := mem, kernelEntry := layout.legacyEp m }) := by
  simp only [Layout.handleLegacy, handleLegacyHeader, ntohl_word]
  rfl

theorem sizeCheck_iff :
    layout.kernImageLen - LegacyImageHeader.size < layout.legacySize m ↔
      if 64 ≤ layout.kernImageLen.toNat then
        layout.kernImageLen.toNat < 64 + (layout.legacySize m).toNat
      else
        2 ^ 32 - 64 + layout.kernImageLen.toNat <
          (layout.legacySize m).toNat := by
  have header : LegacyImageHeader.size.toNat = 64 := by decide
  have := layout.kernImageLen.isLt
  rw [BitVec.lt_def, BitVec.toNat_sub, header]
  split <;> omega

theorem handleLegacy_eq_rejected_iff :
    layout.handleLegacy m = some (-99, m) ↔
      layout.kernImageLen - LegacyImageHeader.size < layout.legacySize m := by
  rw [handleLegacy_eq]
  by_cases fails : layout.kernImageLen - LegacyImageHeader.size <
      layout.legacySize m
  · rw [if_pos fails]
    exact iff_of_true rfl fails
  · rw [if_neg fails]
    refine iff_of_false (fun rejected => ?_) fails
    obtain ⟨_, _, same⟩ := Option.map_eq_some_iff.mp rejected
    have codes : (0 : Int) = -99 := congrArg Prod.fst same
    exact absurd codes (by decide)

theorem handleLegacy_cases {ret : Int} {next : Machine}
    (returned : layout.handleLegacy m = some (ret, next)) :
    ret = -99 ∧ next = m ∨
      ret = 0 ∧ ∃ now, next =
        { m with mem := now, kernelEntry := layout.legacyEp m } := by
  rw [handleLegacy_eq] at returned
  split at returned
  · cases returned
    exact .inl ⟨rfl, rfl⟩
  · obtain ⟨now, _, same⟩ := Option.map_eq_some_iff.mp returned
    cases same
    exact .inr ⟨rfl, now, rfl⟩

/-- A payload inside the image is copied: its end is below the workspace. -/
theorem handleLegacy_copies (fits : layout.LegacyFits m) :
    ∃ now, layout.handleLegacy m =
        some (0, { m with mem := now, kernelEntry := layout.legacyEp m }) ∧
      ForwardCopy m.mem now (layout.legacyLoad m) layout.legacyPayload
        (copyStart (layout.legacySize m).toNat)
        (layout.legacySize m).toNat := by
  have inside := layout.image_end_le_workspace
  have room := layout.workspace_add_lt
  unfold Layout.LegacyFits at fits
  have start : layout.legacyPayload.toNat =
      layout.kernelDataStart.toNat + 64 :=
    @Word.toNat_add_ofNat layout.kernelDataStart 64 (by omega)
  have stop : (layout.legacyPayload + layout.legacySize m).toNat =
      layout.legacyPayload.toNat + (layout.legacySize m).toNat := by
    rw [BitVec.toNat_add]
    omega
  have ends := (myMemcpy_isSome_iff m.mem (layout.legacyLoad m)
    layout.legacyPayload (layout.legacySize m)).mpr (by omega)
  obtain ⟨now, returned⟩ := Option.isSome_iff_exists.mp ends
  refine ⟨now, ?_, myMemcpy_copies (by omega) returned⟩
  have passes : ¬ layout.kernImageLen - LegacyImageHeader.size <
      layout.legacySize m := by
    rw [sizeCheck_iff, if_pos (by omega)]
    omega
  rw [handleLegacy_eq, if_neg passes, returned]
  rfl

theorem legacyPayload_within (fits : layout.LegacyFits m) {i : Nat}
    (inside : i < (layout.legacySize m).toNat) :
    Word.Within layout.kernelDataStart layout.kernImageLen.toNat
      (layout.legacyPayload + BitVec.ofNat 32 i) := by
  have small := layout.kernImageLen.isLt
  unfold Layout.LegacyFits at fits
  rw [Layout.legacyPayload,
    show LegacyImageHeader.size = BitVec.ofNat 32 64 from rfl,
    Word.add_ofNat_add_ofNat]
  have start : (layout.kernelDataStart - layout.kernelDataStart).toNat = 0 := by
    simp
  rw [Word.within_add_ofNat_iff (by omega), start]
  omega

end Legacy

section SizeCheck

variable (layout : Layout) (m : Machine)

/-- The handler returns 0 for the payloads that fit and -99 for the others, so
that it copies from inside the image only. -/
structure SizeCheckExact : Prop where
  returnsZero : (∃ next, layout.handleLegacy m = some (0, next)) ↔
    layout.LegacyFits m
  rejects : ¬ layout.LegacyFits m → layout.handleLegacy m = some (-99, m)
  source : layout.handleLegacy m ≠ some (-99, m) →
    ∀ i, i < (layout.legacySize m).toNat →
      Word.Within layout.kernelDataStart layout.kernImageLen.toNat
        (layout.legacyPayload + BitVec.ofNat 32 i)

/-- The check is exact but for an image shorter than the header. -/
theorem sizeCheckExact_iff :
    SizeCheckExact layout m ↔ layout.SizeCheckApplies m := by
  unfold Layout.SizeCheckApplies
  constructor
  · intro exact
    by_contra misled
    push Not at misled
    have short : ¬ layout.LegacyFits m := by
      unfold Layout.LegacyFits
      omega
    have fails := handleLegacy_eq_rejected_iff.mp (exact.rejects short)
    rw [sizeCheck_iff, if_neg (by omega)] at fails
    omega
  · intro applies
    have rejects (short : ¬ layout.LegacyFits m) :
        layout.handleLegacy m = some (-99, m) := by
      rw [handleLegacy_eq_rejected_iff, sizeCheck_iff]
      unfold Layout.LegacyFits at short
      split <;> omega
    refine ⟨⟨fun ⟨next, returned⟩ => ?_, fun fits => ?_⟩, rejects, ?_⟩
    · by_contra short
      have same := Option.some.inj (returned.symm.trans (rejects short))
      have codes : (0 : Int) = -99 := congrArg Prod.fst same
      exact absurd codes (by decide)
    · obtain ⟨now, returned, _⟩ := handleLegacy_copies fits
      exact ⟨_, returned⟩
    · intro accepted i inside
      have fits : layout.LegacyFits m := by
        by_contra short
        exact accepted (rejects short)
      exact legacyPayload_within fits inside

end SizeCheck

def shortLayout : Layout := linkedLayout 32 (by decide)

/-- The first 32 bytes of a legacy header, for a payload of 16 bytes. -/
def shortMachine : Machine :=
  .boot (.ofBytes 0x84805000
    ([legacyIhMagic, 0, 0, 16, 0x80208000, 0x80208000, 0, 0].flatMap
      Memory.beBytes)) 0

/-- 32 bytes cannot hold a header, but the handler goes on to copy. -/
theorem sizeCheck_short : ¬ SizeCheckExact shortLayout shortMachine := by
  intro exact
  have rejected := exact.rejects (by
    unfold Layout.LegacyFits
    decide +kernel)
  rw [handleLegacy_eq_rejected_iff] at rejected
  exact absurd rejected (by decide +kernel)

section Intact

variable (layout : Layout) (m next : Machine)

/-- The kernel is at its load address, and only there has memory changed. -/
structure KernelIntact : Prop where
  payload : ∀ i, i < (layout.legacySize m).toNat →
    next.mem (layout.legacyLoad m + BitVec.ofNat 32 i) =
      m.mem (layout.legacyPayload + BitVec.ofNat 32 i)
  frame : ∀ a,
    ¬ Word.Within (layout.legacyLoad m) (layout.legacySize m).toNat a →
    next.mem a = m.mem a
  kernelEntry : next.kernelEntry = layout.legacyEp m

/-- The payload bytes that are overwritten before they are read have the
values that overwrite them. None are if the load address is not above the
payload, or beyond its end. -/
def Layout.OverlapRepeats : Prop :=
  Repeats m.mem (layout.legacyLoad m) layout.legacyPayload
    (copyStart (layout.legacySize m).toNat) (layout.legacySize m).toNat

theorem handleLegacy_intact_iff (fits : layout.LegacyFits m) :
    (∀ next, layout.handleLegacy m = some (0, next) →
        KernelIntact layout m next) ↔ layout.OverlapRepeats m := by
  obtain ⟨now, returned, copy⟩ := handleLegacy_copies fits
  rw [Layout.OverlapRepeats, ← copy.intact_iff (copyStart_le _), returned]
  constructor
  · intro intact
    exact (intact _ rfl).payload
  · intro payload next same
    cases same
    exact ⟨payload, copy.outside, rfl⟩

end Intact

def legacyLayout : Layout := linkedLayout 72 (by decide)

def legacyMachine (load : Word) : Machine :=
  .boot (.ofBytes 0x84805000
    ([legacyIhMagic, 0, 0, 8, load, load, 0, 0].flatMap Memory.beBytes ++
      List.replicate 32 0 ++ [1, 2, 3, 4, 5, 6, 7, 8])) 0

theorem handleLegacy_intact_iff_usual :
    (∀ next, legacyLayout.handleLegacy (legacyMachine 0x80208000) =
        some (0, next) →
        KernelIntact legacyLayout (legacyMachine 0x80208000) next) ↔
      legacyLayout.OverlapRepeats (legacyMachine 0x80208000) :=
  handleLegacy_intact_iff legacyLayout (legacyMachine 0x80208000)
    (by unfold Layout.LegacyFits; decide +kernel)

theorem handleLegacy_overlap_spoils :
    legacyLayout.LegacyFits (legacyMachine 0x84805044) ∧
      (legacyLayout.legacyLoad (legacyMachine 0x84805044)).toNat +
          (legacyLayout.legacySize (legacyMachine 0x84805044)).toNat <
        2 ^ 32 ∧
      ¬ ∀ next, legacyLayout.handleLegacy (legacyMachine 0x84805044) =
          some (0, next) →
        KernelIntact legacyLayout (legacyMachine 0x84805044) next := by
  have fits : legacyLayout.LegacyFits (legacyMachine 0x84805044) := by
    unfold Layout.LegacyFits
    decide +kernel
  refine ⟨fits, by decide +kernel, fun intact => ?_⟩
  obtain ⟨now, returned, copy⟩ := handleLegacy_copies fits
  have repeating := (copy.intact_iff (copyStart_le _)).mp
    (intact _ returned).payload
  have size : (legacyLayout.legacySize (legacyMachine 0x84805044)).toNat = 8 := by
    decide +kernel
  rw [size] at repeating
  -- The byte at index 4 is read after index 0 has been written over it.
  have same := repeating 4 (by decide) 0 (by decide) (by decide +kernel)
  revert same
  decide +kernel

end AuxLoader
