import AuxLoader.Fdt.Sound
import AuxLoader.Fit.Unpack

namespace AuxLoader.Fit

open Data Fdt

/-! Whether what the handler consumes lies in the image. -/

section Inside

variable (layout : Layout) (m : Machine)

def InImage (least : Nat) (r : PropResult) : Prop :=
  least ≤ r.len.toNat ∧ ∀ i, i < r.len.toNat →
    Word.Within layout.kernelDataStart layout.kernImageLen.toNat
      (r.ptr + BitVec.ofNat 32 i)

/-- With the return code 0, the words read from `load` and `entry` and the
data handed on lie in the image. -/
def ConsumesInside (platform : Platform) (decode : LzmaDecoder)
    (m : Machine) : Prop :=
  ∀ next, platform.handleFit decode m = some (0, next) →
    ∃ image, platform.Accepts m image ∧
      InImage platform.toLayout 4 image.load ∧
      InImage platform.toLayout 4 image.entry ∧
      InImage platform.toLayout 0 image.kernel ∧
      InImage platform.toLayout 0 image.dtb

/-- Where the value of a property token starts, counted from the start of the
image. -/
def valueOffset (s : WalkState) : Word :=
  m.mem.beWord (layout.kernelDataStart + FdtHeader.offDtStruct) + s.offset +
    FdtProperty.size

def declaredLen (s : WalkState) : Word :=
  (headerBlob m.mem layout.kernelDataStart).lenAt m.mem s.offset

/-- The property token that a lookup selects declares at least that length,
and no more than there is left of the image behind its header. -/
def DeclaresInside (least : Nat) (nodeName propName : CString) : Prop :=
  ∀ s, Selects m.mem layout.kernelDataStart nodeName propName s →
    least ≤ (declaredLen layout m s).toNat ∧
      (declaredLen layout m s = 0 ∨
        (valueOffset layout m s).toNat + (declaredLen layout m s).toNat ≤
          layout.kernImageLen.toNat)

structure ImageDeclaresInside : Prop where
  load : DeclaresInside layout m 4 fitKernelNodeName (.lit "load")
  entry : DeclaresInside layout m 4 fitKernelNodeName (.lit "entry")
  kernel : DeclaresInside layout m 0 fitKernelNodeName (.lit "data")
  dtb : DeclaresInside layout m 0 fitDtbNodeName (.lit "data")

variable {layout m}

theorem inImage_iff {least : Nat} {r : PropResult} :
    InImage layout least r ↔
      least ≤ r.len.toNat ∧
        (r.len = 0 ∨ (r.ptr - layout.kernelDataStart).toNat + r.len.toNat ≤
          layout.kernImageLen.toNat) := by
  have empty : r.len.toNat = 0 ↔ r.len = 0 :=
    BitVec.toNat_inj (y := 0)
  rw [InImage, Word.range_within_iff layout.kernImageLen.isLt, empty]

theorem valueAt_sub_start (s : WalkState) :
    (headerBlob m.mem layout.kernelDataStart).valueAt s.offset -
      layout.kernelDataStart = valueOffset layout m s := by
  rw [Blob.valueAt, headerBlob, ntohl_word, valueOffset, BitVec.add_assoc,
    BitVec.add_assoc, BitVec.add_comm layout.kernelDataStart,
    BitVec.add_sub_cancel, BitVec.add_assoc]

theorem Finds.inImage_iff {least : Nat} {nodeName propName : CString}
    {r : PropResult}
    (finds : Finds m.mem layout.kernelDataStart nodeName propName r) :
    InImage layout least r ↔
      DeclaresInside layout m least nodeName propName := by
  have value (s : WalkState)
      (selects : Selects m.mem layout.kernelDataStart nodeName propName s) :
      r = ⟨(headerBlob m.mem layout.kernelDataStart).valueAt s.offset,
        declaredLen layout m s⟩ :=
    Option.some.inj (finds.1.symm.trans selects.val)
  rw [Fit.inImage_iff]
  constructor
  · intro inside s selects
    rw [value s selects, valueAt_sub_start] at inside
    exact inside
  · intro declares
    rcases fdtGetProp_null_or_selects finds.1 with rfl | ⟨s, selects⟩
    · exact absurd rfl finds.2
    · rw [value s selects, valueAt_sub_start]
      exact declares s selects

/-- The blobs of the lookups end far below the top of the address space. -/
theorem lookup_below_top {mem : Memory}
    (checked : fdtCheckHeader mem layout.kernelDataStart layout.kernImageLen =
      0) :
    layout.kernelDataStart.toNat +
      (mem.beWord (layout.kernelDataStart + FdtHeader.totalsize)).toNat + 12 ≤
        2 ^ 32 := by
  have size := BitVec.le_def.mp (headerAccepted_of_check checked).totalsize
  have stop := layout.image_end_le_workspace
  have top := layout.workspace_add_lt
  omega

end Inside

theorem ConsumesInside.declares {platform : Platform} {decode : LzmaDecoder}
    {m : Machine} (inside : ConsumesInside platform decode m)
    {image : FitImage} (accepts : platform.Accepts m image)
    (ends : DtbCopyEnds image) :
    ImageDeclaresInside platform.toLayout m := by
  obtain ⟨next, returned, _⟩ := handleFit_returns decode accepts ends
  obtain ⟨other, same, load, entry, kernel, dtb⟩ := inside next returned
  exact ⟨same.load.inImage_iff.mp load, same.entry.inImage_iff.mp entry,
    same.kernel.inImage_iff.mp kernel, same.dtb.inImage_iff.mp dtb⟩

/-- No check stands between a declared length and its use. -/
theorem consumesInside_iff (platform : Platform) (decode : LzmaDecoder)
    (m : Machine) :
    ConsumesInside platform decode m ↔
      ∀ image, platform.Accepts m image → DtbCopyEnds image →
        ImageDeclaresInside platform.toLayout m := by
  constructor
  · intro inside image accepts ends
    exact inside.declares accepts ends
  · intro declares next returned
    obtain ⟨image, accepts, ends, _⟩ := handleFit_zero returned
    have all := declares image accepts ends
    exact ⟨image, accepts, accepts.load.inImage_iff.mpr all.load,
      accepts.entry.inImage_iff.mpr all.entry,
      accepts.kernel.inImage_iff.mpr all.kernel,
      accepts.dtb.inImage_iff.mpr all.dtb⟩

/-- An image cut off in the middle of a device tree of eight bytes, with a
load address that leaves the LZMA stage out. -/
def cutMachine : Machine :=
  fitMachine (fitBytes
    (kernelNode 0x90000000 [0x5d, 0, 0, 0x80] ++
      dtbNode [0xd0, 0x0d, 0xfe, 0xed, 0, 0, 0, 8]) 20)

def cutImage : FitImage where
  kernelName := ⟨0x84805080, 6⟩
  load := ⟨0x84805094, 4⟩
  kernelLoad := 0x90000000
  entry := ⟨0x848050a4, 4⟩
  kernelEp := 0x90000000
  kernel := ⟨0x848050b4, 4⟩
  kernelCompr := ⟨0x848050c4, 5⟩
  dtb := ⟨0x848050e8, 8⟩

theorem cutImage_consumed :
    ¬ ConsumesInside (linkedPlatform 236 (by decide)) rejectAll
      cutMachine := by
  intro inside
  have accepts : (linkedPlatform 236 (by decide)).Accepts cutMachine
      cutImage := by
    decide +kernel
  have declares := inside.declares accepts (by unfold DtbCopyEnds; decide)
  have dtb := accepts.dtb.inImage_iff.mpr declares.dtb
  rw [inImage_iff] at dtb
  exact absurd dtb (by decide)

end AuxLoader.Fit
