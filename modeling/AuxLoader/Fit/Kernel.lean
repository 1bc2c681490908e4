import AuxLoader.Boot
import AuxLoader.Fdt.Values
import AuxLoader.Fit.Dtb
import AuxLoader.LzmaDecode.File

namespace AuxLoader.Fit

open Data Fdt LzmaDecode

/-! From the nodes of an image to the kernel that runs. -/

/-- The nodes of the kernel and of its device tree, with all that the handler
looks up. -/
structure KernelTree (root : Node) (kernelLoad kernelEp : Word)
    (kernel dtb : List Byte) : Prop where
  description : (root.value? fitKernelNodeName (.lit "description")).isSome
  load : root.value? fitKernelNodeName (.lit "load") =
    some (Memory.beBytes kernelLoad)
  entry : root.value? fitKernelNodeName (.lit "entry") =
    some (Memory.beBytes kernelEp)
  kernel : root.value? fitKernelNodeName (.lit "data") = some kernel
  compression : (root.value? fitKernelNodeName (.lit "compression")).isSome
  dtb : root.value? fitDtbNodeName (.lit "data") = some dtb

section Tree

variable {root : Node} {blob : Serialisation root} {mem : Memory}
  {data kernImageLen kernelLoad kernelEp : Word} {kernel dtb : List Byte}

theorem finds_of_value? {nodeName propName : CString} {value : List Byte}
    (held : mem.Holds data blob.bytes)
    (fits : data.toNat + blob.bytes.length < 2 ^ 32)
    (found : root.value? nodeName propName = some value) :
    ∃ r, Finds mem data nodeName propName r ∧
      Located mem data blob.bytes.length value r := by
  obtain ⟨val, located⟩ := blob.located_of_value? held fits found
  refine ⟨_, ⟨val, fun null => ?_⟩, located⟩
  have above := located.above
  rw [null] at above
  exact absurd above (by simp)

/-- The checks let the image through. -/
theorem KernelTree.accepted
    (tree : KernelTree root kernelLoad kernelEp kernel dtb)
    (supported : blob.Supported) (held : mem.Holds data blob.bytes)
    (whole : blob.bytes.length ≤ kernImageLen.toNat)
    (fits : data.toNat + kernImageLen.toNat < 2 ^ 32) :
    ∃ image, Accepted mem data kernImageLen image ∧
      image.kernelLoad = kernelLoad ∧ image.kernelEp = kernelEp ∧
      Located mem data blob.bytes.length kernel image.kernel ∧
      Located mem data blob.bytes.length dtb image.dtb := by
  have within : data.toNat + blob.bytes.length < 2 ^ 32 := by omega
  obtain ⟨_, description⟩ := Option.isSome_iff_exists.mp tree.description
  obtain ⟨_, compression⟩ := Option.isSome_iff_exists.mp tree.compression
  obtain ⟨kernelName, name, _⟩ := finds_of_value? held within description
  obtain ⟨load, loads, loadAt⟩ := finds_of_value? held within tree.load
  obtain ⟨entry, enters, entryAt⟩ := finds_of_value? held within tree.entry
  obtain ⟨kernelData, finds, kernelAt⟩ :=
    finds_of_value? held within tree.kernel
  obtain ⟨compr, compressed, _⟩ := finds_of_value? held within compression
  obtain ⟨dtbData, dtbs, dtbAt⟩ := finds_of_value? held within tree.dtb
  refine ⟨⟨kernelName, load, kernelLoad, entry, kernelEp, kernelData, compr,
    dtbData⟩, ⟨supported.fdtCheckHeader held whole, name, loads, ?_, enters, ?_,
    finds, compressed, dtbs, ?_⟩, rfl, rfl, kernelAt, dtbAt⟩
  · exact (Memory.holds_beBytes.mp loadAt.holds).symm
  · exact (Memory.holds_beBytes.mp entryAt.holds).symm
  · have above := kernelAt.above
    have below := kernelAt.below
    have len := kernelAt.len
    rw [BitVec.lt_def]
    dsimp only at *
    omega

end Tree

/-- The kernel unpacks below the loader and its stack, and what the loader uses
beyond the image leaves the page table alone. -/
structure Roomy (layout : Layout) (kernelLoad : Word) (outSize numProbs : Nat)
    (dtb : List Byte) : Prop where
  kernel : kernelLoad.toNat + outSize ≤ layout.stackEnd
  probs : layout.workspace.toNat + 2 * numProbs ≤ layout.pageTable.toNat
  dtb : layout.workspace.toNat + dtb.length ≤ layout.pageTable.toNat
  pageTable : layout.pageTable.toNat + 16384 ≤ 2 ^ 32

section Kernel

variable {platform : Platform} {m : Machine} {image : FitImage}
  {file : LzmaFile} {dtb : List Byte} {size : Nat}

variable (image) in
/-- The page table does not reach into the image. -/
theorem cachedMem_holds {value : List Byte} {r : PropResult}
    (located : Located m.mem platform.kernelDataStart size value r)
    (fits : platform.kernelDataStart.toNat + size ≤ platform.workspace.toNat)
    (room : platform.workspace.toNat ≤ platform.pageTable.toNat)
    (top : platform.pageTable.toNat + 16384 ≤ 2 ^ 32) :
    (cachedMem platform image m).Holds r.ptr value := by
  have below := located.below
  rw [Memory.holds_iff]
  intro i bound
  rw [cachedMem_outside fun table => ?_]
  · exact Memory.holds_iff.mp located.holds i bound
  · rw [Word.within_iff top, Word.toNat_add_ofNat (by omega)] at table
    omega

variable (room : Roomy platform.toLayout image.kernelLoad file.outSize.toNat
    file.properties.numProbs dtb)
  (valid : file.properties.Valid)
  (kernelAt : Located m.mem platform.kernelDataStart size file.bytes
    image.kernel)
  (fits : platform.kernelDataStart.toNat + size ≤ platform.workspace.toNat)

include room valid kernelAt fits

/-- The LZMA stage gets the file as it is in the image. -/
theorem unpack_unpacks {packets : List Packet} {ending : Ending}
    (packs : Packs file.outSize.toNat .start packets)
    (legal : Ending.Legal file.outSize.toNat (expand packets .start).out.length
      ending)
    (stream : Encodes file.properties packets ending file.stream) :
    (unpack platform lzmaDecode image m).1 = 0 ∧
      (unpack platform lzmaDecode image m).2.Holds image.kernelLoad
        ((expand packets .start).out.take file.outSize.toNat) := by
  have above := kernelAt.above
  have below := kernelAt.below
  have len := kernelAt.len
  have kernel := room.kernel.trans platform.stackEnd_le_textBase
  have probs := room.probs
  have table := room.pageTable
  have text := BitVec.le_def.mp platform.textBase_le_start
  have long := file.length_bytes
  have rest : (image.kernel.len - 13).toNat = image.kernel.len.toNat - 13 := by
    bv_omega
  have start : (image.kernel.ptr + 13).toNat = image.kernel.ptr.toNat + 13 := by
    bv_omega
  refine lzmaGogogo_unpacks valid ?_ packs legal stream
    (cachedMem_holds image kernelAt fits (by omega) table) (by omega)
  constructor
  · intro a output near
    rw [Word.within_iff (by dsimp only [fileCall]; omega)] at output near
    dsimp only [fileCall] at output near
    omega
  · intro a input output
    rw [Word.within_iff (by dsimp only [fileCall]; omega)] at input output
    dsimp only [fileCall] at input output
    omega
  · intro a input near
    rw [Word.within_iff (by dsimp only [fileCall]; omega)] at input near
    dsimp only [fileCall] at input near
    omega

/-- The LZMA stage leaves the device tree in the image alone. -/
theorem unpack_spares
    (dtbAt : Located m.mem platform.kernelDataStart size dtb image.dtb) :
    (unpack platform lzmaDecode image m).2.Holds image.dtb.ptr dtb := by
  have same : unpack platform lzmaDecode image m =
      unpack platform lzmaDecode.guarded image m :=
    congrArg Traced.val (lzmaGogogo_guarded _ _ _ _ _ _).symm
  have above := dtbAt.above
  have below := dtbAt.below
  have kernel := room.kernel.trans platform.stackEnd_le_textBase
  have probs := room.probs
  have table := room.pageTable
  have text := BitVec.le_def.mp platform.textBase_le_start
  obtain ⟨first, outSize, _⟩ :=
    LzmaFile.holds (cachedMem_holds image kernelAt fits (by omega) table)
  have held := cachedMem_holds image dtbAt fits (by omega) table
  rw [same, Memory.holds_iff]
  intro i bound
  rw [unpack_mem_outside lzmaDecode_guarded_writesWithin]
  · exact Memory.holds_iff.mp held i bound
  · rintro ⟨_, owned⟩
    rw [first, outSize, valid.propertiesOf_prop0.2, Word.within_iff (by omega),
      Word.within_iff (by omega), Word.toNat_add_ofNat (by omega)] at owned
    omega

end Kernel

/-- A loader that is entered with the machine type of the board, with an image
of a packed kernel and a device tree, enters the kernel as it was packed, and
hands over the device tree as it is. -/
theorem run_boots {platform : Platform} {root : Node}
    {blob : Serialisation root} {mem : Memory} {cr : Word} {file : LzmaFile}
    {packets : List Packet} {ending : Ending} {kernelLoad kernelEp : Word}
    {dtb : List Byte} (supported : blob.Supported)
    (held : mem.Holds platform.kernelDataStart blob.bytes)
    (whole : blob.bytes.length ≤ platform.kernImageLen.toNat)
    (tree : KernelTree root kernelLoad kernelEp file.bytes dtb)
    (valid : file.properties.Valid)
    (packs : Packs file.outSize.toNat .start packets)
    (legal : Ending.Legal file.outSize.toNat (expand packets .start).out.length
      ending)
    (stream : Encodes file.properties packets ending file.stream)
    (room : Roomy platform.toLayout kernelLoad file.outSize.toNat
      file.properties.numProbs dtb) :
    ∃ last, run platform lzmaDecode ipqArch mem cr =
        some (.kernelCall kernelEp 0 4200 platform.workspace last) ∧
      last.mem.Holds kernelLoad
        ((expand packets .start).out.take file.outSize.toNat) ∧
      last.mem.Holds platform.workspace dtb := by
  have fit : platform.magic (entered ipqArch mem cr) = fitIhMagic :=
    supported.magic_eq held
  have stop := platform.image_end_le_workspace
  have top := platform.workspace_add_lt
  obtain ⟨image, accepts, rfl, rfl, kernelAt, dtbAt⟩ :=
    tree.accepted supported held whole (by omega)
  have fits : platform.kernelDataStart.toNat + blob.bytes.length ≤
      platform.workspace.toNat := by omega
  obtain ⟨_, unpacked⟩ := unpack_unpacks (m := entered ipqArch mem cr) room
    valid kernelAt fits packs legal stream
  have spared :=
    unpack_spares (m := entered ipqArch mem cr) room valid kernelAt fits dtbAt
  have above := kernelAt.above
  have tail := dtbAt.below
  have kernel := room.kernel.trans platform.stackEnd_le_textBase
  have table := room.pageTable
  have workspace := room.dtb
  have text := BitVec.le_def.mp platform.textBase_le_start
  have below : image.kernelLoad < image.kernel.ptr := by
    rw [BitVec.lt_def]
    omega
  have len : image.dtb.len.toNat = dtb.length := dtbAt.len
  have ends : DtbCopyEnds image := by
    unfold DtbCopyEnds
    rw [BitVec.toNat_add]
    omega
  obtain ⟨next, returned, booted⟩ :=
    @handleFit_returns platform (entered ipqArch mem cr) image lzmaDecode
      accepts ends
  have copy := myMemcpy_copies (by omega) booted.copy
  rw [unpackedMem, if_pos below, len] at copy
  refine ⟨cleanupBeforeLinux platform next, ?_, ?_, ?_⟩
  · rw [run_of_handled ((handleImage_fit fit).trans returned),
      booted.kernelEntry, booted.kernelP0, booted.kernelP1, booted.kernelP2]
    rfl
  · rw [cleanupBeforeLinux_mem, Memory.holds_iff]
    intro i bound
    have short := List.length_take_le file.outSize.toNat
      (expand packets .start).out
    rw [copy.outside _ fun near => ?_]
    · exact Memory.holds_iff.mp unpacked i bound
    · rw [Word.within_iff (by omega), Word.toNat_add_ofNat (by omega)] at near
      omega
  · rw [cleanupBeforeLinux_mem, Memory.holds_iff]
    intro i bound
    have intact := (copy.intact_iff (copyStart_le _)).mpr
      (repeats_of_apart (copyStart_le _) (by omega) (.inr (by omega))) i bound
    rw [intact]
    exact Memory.holds_iff.mp spared i bound

/-- How the LZMA stage calls the decoder. -/
def stageCall (platform : Platform) (image : FitImage) (m : Machine) : Call :=
  headerCall (cachedMem platform image m) platform.workspace image.kernelLoad
    image.kernel.ptr image.kernel.len

/-- The data of the kernel lies in the image, the output that its header asks
for ends below the loader and its stack, and nothing that the workspace is used
for wraps around. -/
structure OutputKept (platform : Platform) (m : Machine) (image : FitImage) :
    Prop where
  kernel : InImage platform.toLayout 13 image.kernel
  output : image.kernelLoad.toNat +
    (stageCall platform image m).outSize.toNat ≤ platform.stackEnd
  probs : platform.workspace.toNat +
    2 * (stageCall platform image m).properties.numProbs ≤ 2 ^ 32
  source : image.dtb.ptr.toNat + image.dtb.len.toNat < 2 ^ 32
  target : platform.workspace.toNat + image.dtb.len.toNat ≤ 2 ^ 32

theorem OutputKept.tableApart {platform : Platform} {m : Machine}
    {image : FitImage} (kept : OutputKept platform m image) :
    (stageCall platform image m).TableApart := by
  obtain ⟨_, output, probs, _, _⟩ := kept
  have below := platform.stackEnd_le_workspace
  have top := platform.workspace.isLt
  have outStream : (stageCall platform image m).outStream =
      image.kernelLoad := rfl
  have workspace : (stageCall platform image m).probs =
      platform.workspace := rfl
  intro a here near
  rw [workspace, Word.within_iff probs] at near
  rw [outStream, Word.within_iff (by omega)] at here
  omega

/-- A kernel that is entered after the LZMA stage has returned 0 is what the
packets in its image unpack to, whatever the image is. -/
theorem run_sound {platform : Platform} {mem : Memory}
    {cr entry zero arg params : Word} {last : Machine} {image : FitImage}
    (called : run platform lzmaDecode ipqArch mem cr =
      some (.kernelCall entry zero arg params last))
    (fit : platform.magic (entered ipqArch mem cr) = fitIhMagic)
    (accepts : platform.Accepts (entered ipqArch mem cr) image)
    (kept : OutputKept platform (entered ipqArch mem cr) image)
    (unpacked : .lzmaGogogo image.kernelLoad image.kernel.ptr image.kernel.len
      0 ∈ last.log) :
    let m := entered ipqArch mem cr
    let call := stageCall platform image m
    ∃ packets ending, Packs call.outSize.toNat .start packets ∧
      Ending.Legal call.outSize.toNat (expand packets .start).out.length
        ending ∧
      toldBits call (cachedMem platform image m) =
        streamBits packets ending ∧
      last.mem.Holds image.kernelLoad
        ((expand packets .start).out.take call.outSize.toNat) := by
  dsimp only
  obtain ⟨_, next, handled, rfl, _⟩ := kernelCall_last called
  have returned := (handleImage_fit fit).symm.trans handled
  obtain ⟨other, same, _, booted⟩ := handleFit_zero returned
  cases accepts.unique same
  have apart := kept.tableApart
  obtain ⟨_, output, probs, source, target⟩ := kept
  have stack := platform.stackEnd_le_workspace
  have happens : (entered ipqArch mem cr).Happens next
      (.lzmaGogogo image.kernelLoad image.kernel.ptr image.kernel.len 0) := by
    obtain ⟨events, log, quiet⟩ :=
      (cleanupBeforeLinux_coreStep platform next).log
    rw [log] at unpacked
    exact ⟨next.log, rfl, (List.mem_append.mp unpacked).resolve_right
      (quiet _ _ _ _)⟩
  obtain ⟨below, good, ok⟩ :=
    stageEvents_zero_iff.mp (booted.happens_iff.mp happens)
  have zero : (unpack platform lzmaDecode image (entered ipqArch mem cr)).1 =
      0 := unpack_eq_zero_iff.mpr ⟨good, ok⟩
  have copy := myMemcpy_copies source booted.copy
  rw [unpackedMem, if_pos below] at copy
  obtain ⟨_, ⟨packets, ending, packs, legal, spelt, rfl⟩, holds⟩ :=
    lzmaGogogo_sound apart zero
  refine ⟨packets, ending, packs, legal, spelt, ?_⟩
  rw [cleanupBeforeLinux_mem, Memory.holds_iff]
  intro i bound
  have short := List.length_take_le
    (stageCall platform image (entered ipqArch mem cr)).outSize.toNat
    (expand packets .start).out
  rw [copy.outside _ fun near => ?_]
  · exact Memory.holds_iff.mp holds i bound
  · rw [Word.within_iff target, Word.toNat_add_ofNat (by omega)] at near
    omega

/-! An image of a kernel that unpacks to `ababa`. -/

def ababaFile : LzmaFile :=
  ⟨⟨0, 0, 0⟩, 0x10000, 10, 0, ababaStream⟩

def ababaTree : Node :=
  .mk (.lit "") []
    (.cons (.mk (.lit "images") []
      (.cons (.mk (.lit "kernel@1")
        [⟨.lit "description", (CString.lit "Linux").stored⟩,
          ⟨.lit "load", Memory.beBytes 0x80208000⟩,
          ⟨.lit "entry", Memory.beBytes 0x80208000⟩,
          ⟨.lit "data", ababaFile.bytes⟩,
          ⟨.lit "compression", (CString.lit "lzma").stored⟩] .nil)
        (.cons (.mk (.lit "fdt@1")
          [⟨.lit "data", [0xd0, 0x0d, 0xfe, 0xed]⟩] .nil) .nil))) .nil)

def ababaTokens : List Token :=
  [.beginNode (.lit ""), .beginNode (.lit "images")] ++
    kernelNode 0x80208000 ababaFile.bytes ++
    dtbNode [0xd0, 0x0d, 0xfe, 0xed] ++ [.endNode, .endNode]

def ababaBytes : List Byte :=
  headerBytes 276 80 40 ++ fitStrings ++ structBlock ababaTokens

theorem ababaTokens_names (nameoff : Word) (property : Property)
    (member : .prop nameoff property ∈ ababaTokens) :
    property.name.stored <+:
      ababaBytes.drop ((40 : Word).toNat + nameoff.toNat) :=
  prefix_drop_fitStrings (@fitNodes_names 0x80208000 nameoff ababaFile.bytes
    [0xd0, 0x0d, 0xfe, 0xed] property (by simpa [ababaTokens] using member))

theorem ababaStruct_aligned : 4 ∣ (80 : Word).toNat := by decide

def ababaBlob : Serialisation ababaTree where
  bytes := ababaBytes
  offDtStruct := 80
  offDtStrings := 40
  stream := ababaTokens
  header := by decide +kernel
  size := by decide +kernel
  totalsizeField := by decide +kernel
  structField := by decide +kernel
  stringsField := by decide +kernel
  aligned := ababaStruct_aligned
  tokens := by decide +kernel
  block := by decide +kernel
  names := ababaTokens_names

theorem ababaBlob_supported : ababaBlob.Supported where
  magic := by decide +kernel
  version := ⟨17, by decide +kernel, by decide⟩
  lastCompVersion := ⟨16, by decide +kernel, by decide⟩
  offDtStruct := by decide
  offDtStrings := ⟨by decide, by decide +kernel⟩

theorem ababaTree_kernel :
    KernelTree ababaTree 0x80208000 0x80208000 ababaFile.bytes
      [0xd0, 0x0d, 0xfe, 0xed] :=
  ⟨by decide +kernel, by decide +kernel, by decide +kernel, by decide +kernel,
    by decide +kernel, by decide +kernel⟩

def ababaImage : FitImage where
  kernelName := ⟨0x84805080, 6⟩
  load := ⟨0x84805094, 4⟩
  kernelLoad := 0x80208000
  entry := ⟨0x848050a4, 4⟩
  kernelEp := 0x80208000
  kernel := ⟨0x848050b4, 26⟩
  kernelCompr := ⟨0x848050dc, 5⟩
  dtb := ⟨0x84805100, 4⟩

theorem run_sound_ababa :
    ∃ last, run (linkedPlatform 276 (by decide)) lzmaDecode ipqArch
        (.ofBytes 0x84805000 ababaBlob.bytes) 0 =
          some (.kernelCall 0x80208000 0 4200 0x84806000 last) ∧
      ∃ packets ending, Packs 10 .start packets ∧
        Ending.Legal 10 (expand packets .start).out.length ending ∧
        toldBits
          (stageCall (linkedPlatform 276 (by decide)) ababaImage
            (entered ipqArch (.ofBytes 0x84805000 ababaBlob.bytes) 0))
          (cachedMem (linkedPlatform 276 (by decide)) ababaImage
            (entered ipqArch (.ofBytes 0x84805000 ababaBlob.bytes) 0)) =
          streamBits packets ending ∧
        last.mem.Holds 0x80208000 ((expand packets .start).out.take 10) := by
  let platform := linkedPlatform 276 (by decide)
  let m := entered ipqArch (.ofBytes 0x84805000 ababaBlob.bytes) 0
  have accepts : platform.Accepts m ababaImage := by decide +kernel
  have kernelAt : Located m.mem platform.kernelDataStart 276 ababaFile.bytes
      ababaImage.kernel :=
    ⟨by decide, by decide +kernel, by decide, by decide⟩
  obtain ⟨next, returned, booted⟩ := handleFit_returns lzmaDecode accepts
    (by unfold DtbCopyEnds; decide)
  have zero := (@unpack_unpacks platform m ababaImage ababaFile [] 276
    ⟨by decide, by decide, by decide, by decide⟩ ababaCall_valid kernelAt
    (by decide) ababaPackets (some 2) (by decide) (by decide)
    ababaStream_encodes).1
  obtain ⟨good, ok⟩ := unpack_eq_zero_iff.mp zero
  have happens := booted.happens_iff.mpr
    (stageEvents_zero_iff.mpr ⟨by decide, good, ok⟩)
  obtain ⟨first, outSize, _⟩ := LzmaFile.holds
    (cachedMem_holds ababaImage kernelAt (by decide) (by decide) (by decide))
  have fit : platform.magic m = fitIhMagic := by decide +kernel
  have called := run_of_handled ((handleImage_fit fit).trans returned)
  rw [booted.kernelEntry, booted.kernelP0, booted.kernelP1, booted.kernelP2]
    at called
  have unpacked : .lzmaGogogo ababaImage.kernelLoad ababaImage.kernel.ptr
      ababaImage.kernel.len 0 ∈ (cleanupBeforeLinux platform next).log := by
    obtain ⟨events, log, member⟩ := happens
    obtain ⟨later, lastLog, _⟩ :=
      (cleanupBeforeLinux_coreStep platform next).log
    rw [lastLog, log]
    exact List.mem_append_left _ (List.mem_append_right _ member)
  have asked : (stageCall platform ababaImage m).outSize = 10 := outSize
  have table : (stageCall platform ababaImage m).properties = ⟨0, 0, 0⟩ :=
    (congrArg propertiesOf first).trans (by decide)
  have kept : OutputKept platform m ababaImage :=
    ⟨inImage_iff.mpr (by decide), by rw [asked]; decide, by rw [table]; decide,
      by decide, by decide⟩
  obtain ⟨packets, ending, packs, legal, spelt, holds⟩ :=
    run_sound called fit accepts kept unpacked
  change Packs (stageCall platform ababaImage m).outSize.toNat _ _ at packs
  change Ending.Legal (stageCall platform ababaImage m).outSize.toNat _ _
    at legal
  change Memory.Holds _ _
    (List.take (stageCall platform ababaImage m).outSize.toNat _) at holds
  rw [asked] at packs legal holds
  exact ⟨_, called, packets, ending, packs, legal, spelt, holds⟩

end AuxLoader.Fit
