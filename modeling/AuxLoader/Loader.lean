import AuxLoader.Cpu
import AuxLoader.Fdt.Lookup
import AuxLoader.Lzma
import AuxLoader.Memcpy

namespace AuxLoader

open Data Fdt

/-! The boot flow of `loader.c`, without `DEBUG` and `RB3011_PREINITS`. The
console output has no effect on it. -/

def legacyIhMagic : Word := 0x27051956
def fitIhMagic : Word := 0xd00dfeed

/-! Field offsets and the size of `legacy_image_header_t`. -/

namespace LegacyImageHeader

def ihSize : Word := 12
def ihLoad : Word := 16
def ihEp : Word := 20
def size : Word := 64

end LegacyImageHeader

/-- `none` when the copy never ends. -/
def handleLegacyHeader (kernelDataStart kernImageLen : Word) (m : Machine) :
    Option (Int × Machine) :=
  let image := kernelDataStart
  let kernelLoad := ntohl (m.mem.word (image + LegacyImageHeader.ihLoad))
  let kernelEp := ntohl (m.mem.word (image + LegacyImageHeader.ihEp))
  let src := kernelDataStart + LegacyImageHeader.size
  let dst := kernelLoad
  let kernelBodyLen := ntohl (m.mem.word (image + LegacyImageHeader.ihSize))
  if kernImageLen - LegacyImageHeader.size < kernelBodyLen then
    some (-99, m)
  else
    (myMemcpy m.mem dst src kernelBodyLen).val.map fun mem =>
      (0, { m with mem := mem, kernelEntry := kernelEp })

def fitKernelNodeName : CString := .lit "kernel@1"
def fitDtbNodeName : CString := .lit "fdt@1"

/-- What a run of checks comes to: `none` when a lookup never ends, an error
when the handler returns with that code. -/
abbrev Checked := ExceptT Int Option

/-- A lookup whose NULL makes the handler return the code. -/
def fitProp (mem : Memory) (data : Word) (nodeName propName : CString)
    (code : Int) : Checked PropResult :=
  match (fdtGetProp mem data nodeName propName).val with
  | none => (none : Option (Except Int PropResult))
  | some r => if r.ptr = 0 then throw code else return r

/-- What the checks of the FIT handler have found when they let an image
through. -/
structure FitImage where
  kernelName : PropResult
  load : PropResult
  kernelLoad : Word
  entry : PropResult
  kernelEp : Word
  kernel : PropResult
  kernelCompr : PropResult
  dtb : PropResult
  deriving DecidableEq

/-- `handle_fit_header` up to the size check. -/
def checkFitHeader (mem : Memory) (data kernImageLen : Word) :
    Checked FitImage := do
  if fdtCheckHeader mem data kernImageLen ≠ 0 then
    throw (-99)
  let kernelName ←
    fitProp mem data fitKernelNodeName (.lit "description") (-98)
  let load ← fitProp mem data fitKernelNodeName (.lit "load") (-97)
  let kernelLoad := ntohl (mem.word load.ptr)
  let entry ← fitProp mem data fitKernelNodeName (.lit "entry") (-96)
  let kernelEp := ntohl (mem.word entry.ptr)
  let kernel ← fitProp mem data fitKernelNodeName (.lit "data") (-95)
  let kernelCompr ←
    fitProp mem data fitKernelNodeName (.lit "compression") (-94)
  let dtb ← fitProp mem data fitDtbNodeName (.lit "data") (-93)
  if kernel.len ≥ kernImageLen then
    throw (-99)
  return ⟨kernelName, load, kernelLoad, entry, kernelEp, kernel, kernelCompr,
    dtb⟩

/-- The LZMA stage, under caches that cover the output range. -/
def extractKernel (platform : Platform) (decode : LzmaDecoder)
    (image : FitImage) (m : Machine) : Machine :=
  let dst := image.kernelLoad
  let src := image.kernel.ptr
  let m := biDram0SetRanges dst (src - dst + 0x2000000) m
  let m := enableCaches platform m
  let (res, mem) :=
    (lzmaGogogo decode m.mem platform.workspace dst src image.kernel.len).val
  { m with mem := mem }.emit (.lzmaGogogo dst src image.kernel.len res)

/-- The rest of `handle_fit_header`, which always returns 0 if the copy of the
device tree ends. -/
def bootFitImage (platform : Platform) (decode : LzmaDecoder)
    (image : FitImage) (m : Machine) : Option Machine :=
  let m := watchdogSetup platform.cpuType 30 m
  let m :=
    if image.kernelLoad < image.kernel.ptr then
      extractKernel platform decode image m
    else m
  let m := cleanupBeforeLinux platform m
  let dtbDst := platform.workspace
  (myMemcpy m.mem dtbDst image.dtb.ptr image.dtb.len).val.map fun mem =>
    { m with mem := mem, kernelEntry := image.kernelEp, kernelP2 := dtbDst }

def handleFitHeader (platform : Platform) (decode : LzmaDecoder)
    (kernelDataStart kernImageLen : Word) (m : Machine) :
    Option (Int × Machine) :=
  match (checkFitHeader m.mem kernelDataStart kernImageLen).run with
  | none => none
  | some (.error code) => some (code, m)
  | some (.ok image) =>
      (bootFitImage platform decode image m).map fun m => (0, m)

/-- The `switch` on the magic number, with the `ret` it starts from. -/
def handleImage (platform : Platform) (decode : LzmaDecoder) (m : Machine) :
    Option (Int × Machine) :=
  let start := platform.kernelDataStart
  let magic := ntohl (m.mem.word start)
  if magic = legacyIhMagic then
    handleLegacyHeader start platform.kernImageLen m
  else if magic = fitIhMagic then
    handleFitHeader platform decode start platform.kernImageLen m
  else
    some (-100, m)

inductive Outcome
  | kernelCall (entry zero arch params : Word) (m : Machine)
  | watchdogLoop (m : Machine)

def finish (platform : Platform) : Int × Machine → Outcome
  | (ret, m) =>
      if ret ≠ 0 then
        .watchdogLoop (watchdogSetup platform.cpuType 5 m)
      else
        let m := cleanupBeforeLinux platform m
        .kernelCall m.kernelEntry m.kernelP0 m.kernelP1 m.kernelP2 m

/-- `none` when a lookup or a copy never ends. -/
def loaderMain (platform : Platform) (decode : LzmaDecoder) (arch : Word)
    (m : Machine) : Option Outcome :=
  let m := { m with arch := arch, kernelP1 := arch }
  if arch ≠ ipqArch then
    some (.watchdogLoop (watchdogSetup platform.cpuType 5 m))
  else
    (handleImage platform decode m).map (finish platform)

end AuxLoader
