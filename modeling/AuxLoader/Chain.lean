import AuxLoader.Fit.Kernel
import AuxLoader.Start

namespace AuxLoader

open Data Fdt LzmaDecode

/-! The whole chain, from the first instruction to the kernel. -/

section Chain

variable {build : Build} {mem : Memory} {start cpsr cr : Word}

/-- Where the image is in the payload that has been loaded. -/
def Build.loadedImage (build : Build) (start : Word) : Word :=
  build.head.payloadDataBeginOfs + start +
    (build.kernelDataStart - build.textBase)

/-- The image goes with the payload, and stays clear of `.bss`. -/
theorem LoaderReady.image {arch : Word} {call : LoaderCall}
    (ready : LoaderReady build mem start arch cpsr call) {i : Nat}
    (bound : i < build.kernImageLen.toNat) :
    call.mem (build.kernelDataStart + BitVec.ofNat 32 i) =
      mem (build.loadedImage start + BitVec.ofNat 32 i) := by
  have text := BitVec.le_def.mp build.textBase_le_start
  have order := build.toNat_kernImageLen
  have room := build.image_le_payload
  have moved := ready.payload
    ((build.kernelDataStart - build.textBase).toNat + i) (by bv_omega)
  rwa [← Word.add_ofNat_add_ofNat, ← Word.add_ofNat_add_ofNat,
    Word.add_ofNat_toNat_sub, BitVec.ofNat_toNat, BitVec.setWidth_eq] at moved

theorem LoaderReady.image_held {arch : Word} {call : LoaderCall}
    (ready : LoaderReady build mem start arch cpsr call) {bytes : List Byte}
    (held : mem.Holds (build.loadedImage start) bytes)
    (whole : bytes.length ≤ build.kernImageLen.toNat) :
    call.mem.Holds build.kernelDataStart bytes := by
  rw [Memory.holds_iff] at held ⊢
  intro i bound
  exact (ready.image (by omega)).trans (held i bound)

/-- Off the place of the loader only the last round of the relocation can
change a byte. -/
theorem LoaderReady.outside {arch : Word} {call : LoaderCall}
    (ready : LoaderReady build mem start arch cpsr call) {a : Word}
    (own : ¬ build.Own a)
    (copied : ¬ Word.Within build.textBase
      (copiedLength build.head.payloadLength) a) :
    call.mem a = mem a := by
  refine ready.frame a copied fun ⟨above, before⟩ => own ⟨?_, before⟩
  have stack := build.stackEnd_le_textBase
  have payload := build.payload_le_bss
  have := BitVec.le_def.mp above
  omega

theorem bootChain_eq_run {arch : Word} {call : LoaderCall}
    (decode : LzmaDecoder)
    (enters : enterLoader build mem start arch cpsr = some call)
    (ready : LoaderReady build mem start arch cpsr call) :
    bootChain build decode mem start arch cpsr cr =
      run build.toPlatform decode arch call.mem cr := by
  rw [bootChain, enters, Option.bind_some, ready.r1]

/-- A build around the image of `ababa`. -/
def ababaBuild : Build where
  toPlatform := Fit.linkedPlatform 276 (by decide)
  bssStart := 0x84805120
  vectorTableStub := 0x84800080
  data_le_bss := by decide
  bss_le_workspace := by decide
  bss_aligned := by decide
  head := {
    textBase := 0x84800000
    payloadDataBeginOfs := 0x200
    payloadDataEndOfs := 0x5314
    begin_aligned := by decide
    begin_le_end := by decide }
  textBase_eq := rfl
  image_le_payload := by decide
  payload_le_bss := by decide
  textBase_aligned := by decide

theorem ababaBuild_loaded : Loaded ababaBuild 0x4220e000 :=
  ⟨by decide, by decide, .inl (by decide)⟩

/-- A payload with an image of a packed kernel and a device tree, wherever it
has been loaded off the place of the loader, ends up as the running kernel with
its device tree. -/
theorem bootChain_boots {root : Node} {blob : Serialisation root}
    {file : LzmaFile} {packets : List Packet} {ending : Ending}
    {kernelLoad kernelEp : Word} {dtb : List Byte}
    (loaded : Loaded build start)
    (supported : blob.Supported)
    (held : mem.Holds (build.loadedImage start) blob.bytes)
    (whole : blob.bytes.length ≤ build.kernImageLen.toNat)
    (tree : Fit.KernelTree root kernelLoad kernelEp file.bytes dtb)
    (valid : file.properties.Valid)
    (packs : Packs file.outSize.toNat .start packets)
    (legal : Ending.Legal file.outSize.toNat (expand packets .start).out.length
      ending)
    (stream : Encodes file.properties packets ending file.stream)
    (room : Fit.Roomy build.toLayout kernelLoad file.outSize.toNat
      file.properties.numProbs dtb) :
    ∃ last, bootChain build lzmaDecode mem start ipqArch cpsr cr =
        some (.kernelCall kernelEp 0 4200 build.workspace last) ∧
      last.mem.Holds kernelLoad
        ((expand packets .start).out.take file.outSize.toNat) ∧
      last.mem.Holds build.workspace dtb := by
  obtain ⟨call, enters, ready⟩ :=
    enterLoader_ready build mem start ipqArch cpsr loaded.ranges
  rw [bootChain_eq_run lzmaDecode enters ready]
  exact Fit.run_boots supported (ready.image_held held whole) whole tree valid
    packs legal stream room

end Chain

theorem bootChain_boots_ababa :
    ∃ last, bootChain ababaBuild lzmaDecode
        (.ofBytes 0x42213200 Fit.ababaBlob.bytes) 0x4220e000 ipqArch 0x1f 0 =
          some (.kernelCall 0x80208000 0 4200 0x84806000 last) ∧
      last.mem.Holds 0x80208000 [97, 98, 97, 98, 97] ∧
      last.mem.Holds 0x84806000 [0xd0, 0x0d, 0xfe, 0xed] :=
  @bootChain_boots ababaBuild _ 0x4220e000 0x1f 0 _ Fit.ababaBlob Fit.ababaFile
    ababaPackets (some 2) 0x80208000 0x80208000 _
    ababaBuild_loaded Fit.ababaBlob_supported
    (by decide +kernel) (by decide +kernel) Fit.ababaTree_kernel
    ababaCall_valid (by decide) (by decide) ababaStream_encodes
    ⟨by decide, by decide, by decide, by decide⟩

/-! The other format. -/

/-- A legacy image: the fields of its header and what follows it. -/
structure LegacyImage where
  ihHcrc : Word
  ihTime : Word
  ihLoad : Word
  ihEp : Word
  /-- `ih_dcrc` to `ih_name` -/
  ihRest : List Byte
  payload : List Byte
  rest_length : ihRest.length = 40
  payload_length : payload.length < 2 ^ 32

def LegacyImage.bytes (image : LegacyImage) : List Byte :=
  Memory.beBytes legacyIhMagic ++ Memory.beBytes image.ihHcrc ++
    Memory.beBytes image.ihTime ++
    Memory.beBytes (BitVec.ofNat 32 image.payload.length) ++
    Memory.beBytes image.ihLoad ++ Memory.beBytes image.ihEp ++
    image.ihRest ++ image.payload

section LegacyChain

variable {image : LegacyImage}

theorem LegacyImage.length_bytes (image : LegacyImage) :
    image.bytes.length = 64 + image.payload.length := by
  simp only [bytes, List.length_append, Memory.length_beBytes,
    image.rest_length]

/-- What the handler reads of a legacy image. -/
structure LegacyAt (layout : Layout) (m : Machine) (image : LegacyImage) :
    Prop where
  magic : m.mem.beWord layout.kernelDataStart = legacyIhMagic
  size : layout.legacySize m = BitVec.ofNat 32 image.payload.length
  load : layout.legacyLoad m = image.ihLoad
  ep : layout.legacyEp m = image.ihEp
  payload : m.mem.Holds layout.legacyPayload image.payload

theorem LegacyImage.held {layout : Layout} {m : Machine}
    (held : m.mem.Holds layout.kernelDataStart image.bytes) :
    LegacyAt layout m image := by
  simp only [bytes, Memory.holds_append, Memory.holds_beBytes,
    List.length_append, Memory.length_beBytes, image.rest_length] at held
  obtain ⟨⟨⟨⟨⟨⟨⟨magic, _⟩, _⟩, size⟩, load⟩, ep⟩, _⟩, payload⟩ := held
  exact ⟨magic, size, load, ep, payload⟩

end LegacyChain

end AuxLoader
