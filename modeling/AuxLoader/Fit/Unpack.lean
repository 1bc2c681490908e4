import AuxLoader.Fdt.Termination
import AuxLoader.Fdt.Tree
import AuxLoader.Fit.Boot

namespace AuxLoader.Fit

open Data Fdt

/-! Whether the kernel that is started has been unpacked. -/

section Unpack

variable (platform : Platform) (decode : LzmaDecoder) (m : Machine)

/-- With the return code 0, the LZMA stage has run on the kernel data, with the
load address as its destination, and has returned 0. -/
def StartsUnpacked : Prop :=
  ∀ next, platform.handleFit decode m = some (0, next) →
    ∃ image, platform.Accepts m image ∧
      m.Happens next
        (.lzmaGogogo image.kernelLoad image.kernel.ptr image.kernel.len 0)

/-- The kernel data lies above the load address, and is an LZMA stream that
decodes. -/
structure Unpacks (image : FitImage) : Prop where
  below : image.kernelLoad < image.kernel.ptr
  properties : (cachedMem platform image m image.kernel.ptr).toNat < 225
  stream : (lzmaCall decode (cachedMem platform image m) platform.workspace
    image.kernelLoad image.kernel.ptr image.kernel.len).ret = lzmaResultOk

variable {platform decode m}

theorem unpack_eq_zero_iff {image : FitImage} :
    (unpack platform decode image m).1 = 0 ↔
      (cachedMem platform image m image.kernel.ptr).toNat < 225 ∧
        (lzmaCall decode (cachedMem platform image m) platform.workspace
          image.kernelLoad image.kernel.ptr image.kernel.len).ret =
            lzmaResultOk := by
  rw [unpack, lzmaGogogo_val]
  by_cases bad : (cachedMem platform image m image.kernel.ptr).toNat ≥ 225
  · rw [if_pos bad]
    exact iff_of_false (Int.negSucc_ne_zero 0) fun good =>
      absurd good.1 (by omega)
  · rw [if_neg bad]
    by_cases failed : (lzmaCall decode (cachedMem platform image m)
        platform.workspace image.kernelLoad image.kernel.ptr
        image.kernel.len).ret ≠ lzmaResultOk
    · simp only [if_pos failed]
      exact iff_of_false (Int.negSucc_ne_zero 1) fun good => failed good.2
    · simp only [if_neg failed]
      exact iff_of_true trivial ⟨by omega, not_not.mp failed⟩

theorem stageEvents_zero_iff {image : FitImage} :
    .lzmaGogogo image.kernelLoad image.kernel.ptr image.kernel.len 0 ∈
        stageEvents platform decode image m ↔
      Unpacks platform decode m image := by
  unfold stageEvents
  by_cases below : image.kernelLoad < image.kernel.ptr
  · rw [if_pos below, List.mem_singleton, Event.lzmaGogogo.injEq]
    constructor
    · intro same
      obtain ⟨good, ok⟩ := unpack_eq_zero_iff.mp same.2.2.2.symm
      exact ⟨below, good, ok⟩
    · intro unpacks
      have zero := unpack_eq_zero_iff.mpr ⟨unpacks.properties, unpacks.stream⟩
      exact ⟨rfl, rfl, rfl, zero.symm⟩
  · rw [if_neg below]
    exact iff_of_false (by simp) fun unpacks => below unpacks.below

theorem StartsUnpacked.unpacks (starts : StartsUnpacked platform decode m)
    {image : FitImage} (accepts : platform.Accepts m image)
    (ends : DtbCopyEnds image) : Unpacks platform decode m image := by
  obtain ⟨next, returned, booted⟩ := handleFit_returns decode accepts ends
  obtain ⟨other, same, happens⟩ := starts next returned
  cases accepts.unique same
  exact stageEvents_zero_iff.mp (booted.happens_iff.mp happens)

end Unpack

/-- The handler checks none of this: it returns 0 whenever the copy of the
device tree comes to an end. -/
theorem startsUnpacked_iff (platform : Platform) (decode : LzmaDecoder)
    (m : Machine) :
    StartsUnpacked platform decode m ↔
      ∀ image, platform.Accepts m image → DtbCopyEnds image →
        Unpacks platform decode m image := by
  constructor
  · intro starts image accepts ends
    exact starts.unpacks accepts ends
  · intro unpacks next returned
    obtain ⟨image, accepts, ends, booted⟩ := handleFit_zero returned
    refine ⟨image, accepts, ?_⟩
    rw [booted.happens_iff, stageEvents_zero_iff]
    exact unpacks image accepts ends

def linkedPlatform (kernImageLen : Word) (small : kernImageLen ≤ 0x1000) :
    Platform where
  toLayout := linkedLayout kernImageLen small
  cpuType := .ipq4xxx
  clidr := 0x0a200023
  ccsidr := fun _ => 0x700fe01a
  l2esr := 0

def fitStrings : List Byte :=
  (CString.lit "description").stored ++ (CString.lit "load").stored ++
    (CString.lit "entry").stored ++ (CString.lit "data").stored ++
    (CString.lit "compression").stored

def kernelNode (load : Word) (data : List Byte) : List Token :=
  [.beginNode (.lit "kernel@1"),
    .prop 0 ⟨.lit "description", (CString.lit "Linux").stored⟩,
    .prop 12 ⟨.lit "load", Memory.beBytes load⟩,
    .prop 17 ⟨.lit "entry", Memory.beBytes load⟩,
    .prop 23 ⟨.lit "data", data⟩,
    .prop 28 ⟨.lit "compression", (CString.lit "lzma").stored⟩, .endNode]

def dtbNode (data : List Byte) : List Token :=
  [.beginNode (.lit "fdt@1"), .prop 23 ⟨.lit "data", data⟩, .endNode]

theorem fitNodes_names {load nameoff : Word} {data dtb : List Byte}
    {property : Property}
    (member : .prop nameoff property ∈ kernelNode load data ++ dtbNode dtb) :
    property.name.stored <+: fitStrings.drop nameoff.toNat := by
  simp only [kernelNode, dtbNode, List.mem_append, List.mem_cons, reduceCtorEq,
    Token.prop.injEq, List.not_mem_nil, false_or, or_false, or_assoc] at member
  rcases member with ⟨rfl, rfl⟩ | ⟨rfl, rfl⟩ | ⟨rfl, rfl⟩ | ⟨rfl, rfl⟩ |
    ⟨rfl, rfl⟩ | ⟨rfl, rfl⟩
  all_goals
    dsimp only
    decide +kernel

/-- A name in the block of strings, which stands right behind the header. -/
theorem prefix_drop_fitStrings {totalsize nameoff : Word}
    {name rest : List Byte}
    (stored : name <+: fitStrings.drop nameoff.toNat) :
    name <+: (headerBytes totalsize 80 40 ++ fitStrings ++ rest).drop
      ((40 : Word).toNat + nameoff.toNat) := by
  have header : (headerBytes totalsize 80 40).length = (40 : Word).toNat := by
    simp [headerBytes, Memory.beBytes]
  rw [List.append_assoc, ← header, List.drop_length_add_append,
    List.drop_append]
  exact stored.trans (List.prefix_append _ _)

/-- An image of the given nodes, without its last `cut` bytes. -/
def fitBytes (nodes : List Token) (cut : Nat) : List Byte :=
  let block := structBlock (.beginNode (.lit "") ::
    .beginNode (.lit "images") :: nodes ++ [.endNode, .endNode])
  headerBytes (BitVec.ofNat 32 (80 + block.length - cut)) 80 40 ++
    fitStrings ++ block.take (block.length - cut)

def fitMachine (bytes : List Byte) : Machine :=
  .boot (.ofBytes 0x84805000 bytes) 0

/-- A decoder for the runs below that never reach it. -/
def rejectAll : LzmaDecoder := fun mem _ _ _ _ _ _ =>
  pure ⟨lzmaResultDataError, 0, mem⟩

/-- A kernel that is no LZMA stream, to be loaded below the image. -/
def corruptMachine : Machine :=
  fitMachine (fitBytes
    (kernelNode 0x80208000 [0xff, 0, 0, 0] ++ dtbNode [0xd0, 0x0d, 0xfe, 0xed])
    0)

def corruptImage : FitImage where
  kernelName := ⟨0x84805080, 6⟩
  load := ⟨0x84805094, 4⟩
  kernelLoad := 0x80208000
  entry := ⟨0x848050a4, 4⟩
  kernelEp := 0x80208000
  kernel := ⟨0x848050b4, 4⟩
  kernelCompr := ⟨0x848050c4, 5⟩
  dtb := ⟨0x848050e8, 4⟩

theorem corruptImage_started :
    ¬ StartsUnpacked (linkedPlatform 252 (by decide)) rejectAll
      corruptMachine := by
  intro starts
  have accepts : (linkedPlatform 252 (by decide)).Accepts corruptMachine
      corruptImage := by
    decide +kernel
  have unpacks := starts.unpacks accepts (by unfold DtbCopyEnds; decide)
  have properties : corruptMachine.mem corruptImage.kernel.ptr = 0xff := by
    decide +kernel
  have kept := unpacks.properties
  rw [cachedMem, if_neg (by decide), fillPageTable_outside _ _ _ _ (by decide),
    properties] at kept
  exact absurd kept (by decide)

end AuxLoader.Fit
