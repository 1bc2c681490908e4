import AuxLoader.Fit.Inside

namespace AuxLoader.Fit

open Data Fdt

/-! Whether the device tree in the workspace is the one in the image. -/

section Dtb

variable (platform : Platform) (m : Machine)

structure AcceptsInside (image : FitImage) : Prop where
  accepts : platform.Accepts m image
  kernel : InImage platform.toLayout 0 image.kernel
  dtb : InImage platform.toLayout 0 image.dtb

/-- With the return code 0, the workspace holds the device tree of the image,
whatever a decoder writes to its output and its probability table. -/
def HandsOverDtb : Prop :=
  ∀ image, AcceptsInside platform m image →
    ∀ decode : LzmaDecoder, decode.WritesWithin →
      ∀ next, platform.handleFit decode m = some (0, next) →
        ∀ i, i < image.dtb.len.toNat →
          next.mem (platform.workspace + BitVec.ofNat 32 i) =
            m.mem (image.dtb.ptr + BitVec.ofNat 32 i)

/-- The addresses that the LZMA header of the image gives to the decoder. -/
def DecoderOwns (image : FitImage) (a : Word) : Prop :=
  let mem := cachedMem platform image m
  (mem image.kernel.ptr).toNat < 225 ∧
    (Word.Within image.kernelLoad (mem.word (image.kernel.ptr + 5)).toNat a ∨
      Word.Within platform.workspace
        (2 * (propertiesOf (mem image.kernel.ptr)).numProbs) a)

/-- The LZMA stage, if it is not left out, has the bytes of the device tree
neither under the page table nor in what it gives to the decoder. -/
def SparesDtb (image : FitImage) : Prop :=
  image.kernelLoad < image.kernel.ptr →
    ∀ i, i < image.dtb.len.toNat →
      cachedMem platform image m (image.dtb.ptr + BitVec.ofNat 32 i) =
          m.mem (image.dtb.ptr + BitVec.ofNat 32 i) ∧
        ¬ DecoderOwns platform m image (image.dtb.ptr + BitVec.ofNat 32 i)

variable {platform m} {decode : LzmaDecoder} {image : FitImage}

theorem cachedMem_outside {a : Word}
    (outside : ¬ Word.Within platform.pageTable 16384 a) :
    cachedMem platform image m a = m.mem a := by
  unfold cachedMem
  split
  · rfl
  · exact fillPageTable_outside _ _ _ _ outside

theorem unpack_mem_outside (writes : decode.WritesWithin) {a : Word}
    (outside : ¬ DecoderOwns platform m image a) :
    (unpack platform decode image m).2 a = cachedMem platform image m a := by
  rw [unpack, lzmaGogogo_val]
  by_cases bad : (cachedMem platform image m image.kernel.ptr).toNat ≥ 225
  · rw [if_pos bad]
  · rw [if_neg bad]
    simp only [DecoderOwns, not_and_or, not_or] at outside
    have apart := outside.resolve_left (by omega)
    exact writes _ _ _ _ _ _ _ _ apart.1 apart.2

section Copied

variable (dtb : InImage platform.toLayout 0 image.dtb)
include dtb

theorem dtb_end_le_workspace (nonempty : 0 < image.dtb.len.toNat) :
    image.dtb.ptr.toNat + image.dtb.len.toNat ≤ platform.workspace.toNat := by
  have inside := (inImage_iff.mp dtb).2.resolve_left fun empty => by
    simp [empty] at nonempty
  have stop := platform.image_end_le_workspace
  have top := platform.workspace_add_lt
  bv_omega

theorem dtbCopyEnds_of_inImage (nonempty : 0 < image.dtb.len.toNat) :
    DtbCopyEnds image := by
  have below := dtb_end_le_workspace dtb nonempty
  have top := platform.workspace_add_lt
  rw [DtbCopyEnds, BitVec.toNat_add]
  omega

theorem Booted.dtb_copied {next : Machine}
    (booted : Booted platform decode image m next) {i : Nat}
    (inside : i < image.dtb.len.toNat) :
    next.mem (platform.workspace + BitVec.ofNat 32 i) =
      unpackedMem platform decode image m
        (image.dtb.ptr + BitVec.ofNat 32 i) := by
  have below := dtb_end_le_workspace dtb (by omega)
  have top := platform.workspace_add_lt
  have copy := myMemcpy_copies (by omega) booted.copy
  have apart := @repeats_of_apart (unpackedMem platform decode image m)
    platform.workspace image.dtb.ptr _ image.dtb.len.toNat
    (copyStart_le image.dtb.len.toNat) (by omega) (.inr below)
  exact (copy.intact_iff (copyStart_le _)).mpr apart i inside

end Copied

/-- A decoder that changes every byte it may write. -/
def scribble (original : Memory) : LzmaDecoder :=
  fun mem properties probs _ _ outStream outSize =>
    pure ⟨lzmaResultDataError, 0, fun a =>
      if Word.Within outStream outSize.toNat a ∨
          Word.Within probs (2 * properties.numProbs) a then
        original a + 1
      else mem a⟩

theorem scribble_writesWithin (original : Memory) :
    (scribble original).WritesWithin := by
  intro mem properties probs _ _ outStream outSize a output table
  exact if_neg (not_or.mpr ⟨output, table⟩)

theorem unpack_scribble {a : Word} (owned : DecoderOwns platform m image a) :
    (unpack platform (scribble m.mem) image m).2 a = m.mem a + 1 := by
  rw [unpack, lzmaGogogo_val, if_neg (by have := owned.1; omega)]
  exact if_pos owned.2

end Dtb

/-- The device tree is handed over as it is in the image exactly when the LZMA
stage spares it: nothing checks the output range. -/
theorem handsOverDtb_iff (platform : Platform) (m : Machine) :
    HandsOverDtb platform m ↔
      ∀ image, AcceptsInside platform m image → SparesDtb platform m image := by
  constructor
  · intro handsOver image inside below i bound
    obtain ⟨next, returned, booted⟩ := handleFit_returns (scribble m.mem)
      inside.accepts (dtbCopyEnds_of_inImage inside.dtb (by omega))
    have kept := handsOver image inside _ (scribble_writesWithin m.mem) next
      returned i bound
    rw [booted.dtb_copied inside.dtb bound, unpackedMem, if_pos below] at kept
    have spared : ¬ DecoderOwns platform m image
        (image.dtb.ptr + BitVec.ofNat 32 i) := by
      intro owned
      rw [unpack_scribble owned] at kept
      bv_omega
    rw [unpack_mem_outside (scribble_writesWithin m.mem) spared] at kept
    exact ⟨kept, spared⟩
  · intro spares image inside decode writes next returned i bound
    obtain ⟨other, accepts, _, booted⟩ := handleFit_zero returned
    cases inside.accepts.unique accepts
    rw [booted.dtb_copied inside.dtb bound]
    by_cases below : image.kernelLoad < image.kernel.ptr
    · obtain ⟨kept, spared⟩ := spares image inside below i bound
      rw [unpackedMem, if_pos below, unpack_mem_outside writes spared, kept]
    · rw [unpackedMem, if_neg below]

/-- Clear of the page table, and with room for the probabilities above the
workspace, it is the output range that counts. -/
theorem sparesDtb_iff_output {platform : Platform} {m : Machine}
    {image : FitImage} (inside : AcceptsInside platform m image)
    (header : ∀ i, i < 9 → ¬ Word.Within platform.pageTable 16384
      (image.kernel.ptr + BitVec.ofNat 32 i))
    (tree : ∀ i, i < image.dtb.len.toNat →
      ¬ Word.Within platform.pageTable 16384
        (image.dtb.ptr + BitVec.ofNat 32 i))
    (room : platform.workspace.toNat +
      2 * (propertiesOf (m.mem image.kernel.ptr)).numProbs ≤ 2 ^ 32) :
    SparesDtb platform m image ↔
      (image.kernelLoad < image.kernel.ptr →
        (m.mem image.kernel.ptr).toNat < 225 →
        ∀ i, i < image.dtb.len.toNat →
          ¬ Word.Within image.kernelLoad
            (m.mem.word (image.kernel.ptr + 5)).toNat
            (image.dtb.ptr + BitVec.ofNat 32 i)) := by
  have prop0 : cachedMem platform image m image.kernel.ptr =
      m.mem image.kernel.ptr :=
    cachedMem_outside (by simpa using header 0 (by decide))
  have outsize : (cachedMem platform image m).word (image.kernel.ptr + 5) =
      m.mem.word (image.kernel.ptr + 5) := by
    apply Memory.word_congr
    intro i bound
    apply cachedMem_outside
    rw [show (5 : Word) = BitVec.ofNat 32 5 from rfl,
      Word.add_ofNat_add_ofNat]
    exact header (5 + i) (by omega)
  have table {i : Nat} (bound : i < image.dtb.len.toNat) :
      ¬ Word.Within platform.workspace
        (2 * (propertiesOf (m.mem image.kernel.ptr)).numProbs)
        (image.dtb.ptr + BitVec.ofNat 32 i) := by
    have below := dtb_end_le_workspace inside.dtb (by omega)
    have top := platform.workspace_add_lt
    rw [Word.within_iff room, Word.toNat_add_ofNat (by omega)]
    omega
  have owns {i : Nat} (bound : i < image.dtb.len.toNat) :
      DecoderOwns platform m image (image.dtb.ptr + BitVec.ofNat 32 i) ↔
        (m.mem image.kernel.ptr).toNat < 225 ∧
          Word.Within image.kernelLoad
            (m.mem.word (image.kernel.ptr + 5)).toNat
            (image.dtb.ptr + BitVec.ofNat 32 i) := by
    simp only [DecoderOwns, prop0, outsize, table bound, or_false]
  constructor
  · intro spares below good i bound output
    exact (spares below i bound).2 ((owns bound).mpr ⟨good, output⟩)
  · intro apart below i bound
    refine ⟨cachedMem_outside (tree i bound), fun owned => ?_⟩
    obtain ⟨good, output⟩ := (owns bound).mp owned
    exact apart below good i bound output

/-- An image with the device tree before the kernel. The kernel, which unpacks
to a single zero byte, is to be loaded where the device tree starts. -/
def overlapMachine : Machine :=
  fitMachine (fitBytes
    (dtbNode [0xd0, 0x0d, 0xfe, 0xed] ++
      kernelNode 0x8480507c ([0x5d, 0, 0, 0x80, 0, 1] ++ List.replicate 15 0))
    0)

def overlapImage : FitImage where
  kernelName := ⟨0x848050a0, 6⟩
  load := ⟨0x848050b4, 4⟩
  kernelLoad := 0x8480507c
  entry := ⟨0x848050c4, 4⟩
  kernelEp := 0x8480507c
  kernel := ⟨0x848050d4, 21⟩
  kernelCompr := ⟨0x848050f8, 5⟩
  dtb := ⟨0x8480507c, 4⟩

/-- The probabilities after one literal of zero bits: the first one, and one
for every bit on the way down the literal tree, have moved up. -/
def zeroLiteralProb (number : Nat) : Word :=
  if number ∈ [0, 1847, 1848, 1850, 1854, 1862, 1878, 1910, 1974] then 1056
  else 1024

/-- What `LzmaDecode` does with a stream of that literal. -/
def zeroLiteral : LzmaDecoder :=
  fun mem properties probs inStream _ outStream outSize =>
    .touch ((List.range 6).map fun i => inStream + BitVec.ofNat 32 i)
      ⟨lzmaResultOk, 6, fun a =>
        if Word.Within outStream outSize.toNat a then 0
        else if Word.Within probs (2 * properties.numProbs) a then
          (zeroLiteralProb ((a - probs).toNat / 2)).byte ((a - probs).toNat % 2)
        else mem a⟩

theorem zeroLiteral_writesWithin : zeroLiteral.WritesWithin := by
  intro mem properties probs inStream _ outStream outSize a output table
  exact (if_neg output).trans (if_neg table)

theorem unpack_zeroLiteral {platform : Platform} {m : Machine}
    {image : FitImage} {a : Word}
    (good : (cachedMem platform image m image.kernel.ptr).toNat < 225)
    (output : Word.Within image.kernelLoad
      ((cachedMem platform image m).word (image.kernel.ptr + 5)).toNat a) :
    (unpack platform zeroLiteral image m).2 a = 0 := by
  rw [unpack, lzmaGogogo_val, if_neg (by omega)]
  exact if_pos output

theorem overlapImage_spoiled :
    ¬ HandsOverDtb (linkedPlatform 272 (by decide)) overlapMachine := by
  intro handsOver
  have inside : AcceptsInside (linkedPlatform 272 (by decide)) overlapMachine
      overlapImage := by
    refine ⟨by decide +kernel, ?_, ?_⟩
    · rw [inImage_iff]
      decide
    · rw [inImage_iff]
      decide
  obtain ⟨next, returned, booted⟩ := handleFit_returns zeroLiteral
    inside.accepts (dtbCopyEnds_of_inImage inside.dtb (by decide))
  have kept := handsOver overlapImage inside _ zeroLiteral_writesWithin next
    returned 0 (by decide)
  have prop0 : cachedMem (linkedPlatform 272 (by decide)) overlapImage
      overlapMachine overlapImage.kernel.ptr = 0x5d :=
    (cachedMem_outside (by decide)).trans (by decide +kernel)
  have outsize : (cachedMem (linkedPlatform 272 (by decide)) overlapImage
      overlapMachine).word (overlapImage.kernel.ptr + 5) = 1 := by
    refine (Memory.word_congr fun i bound => ?_).trans
      (show overlapMachine.mem.word _ = 1 by decide +kernel)
    exact cachedMem_outside (by interval_cases i <;> decide)
  have good : (cachedMem (linkedPlatform 272 (by decide)) overlapImage
      overlapMachine overlapImage.kernel.ptr).toNat < 225 := by
    rw [prop0]
    decide
  rw [booted.dtb_copied inside.dtb (by decide), unpackedMem,
    if_pos (by decide), unpack_zeroLiteral good (by rw [outsize]; decide)]
    at kept
  exact absurd kept (by decide +kernel)

end AuxLoader.Fit
