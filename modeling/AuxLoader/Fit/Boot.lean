import AuxLoader.Fit.Handler

namespace AuxLoader

open Data Fdt

/-- The event is among those that lead from one state to the other. -/
def Machine.Happens (m next : Machine) (event : Event) : Prop :=
  ∃ events, next.log = m.log ++ events ∧ event ∈ events

def Platform.handleFit (platform : Platform) (decode : LzmaDecoder)
    (m : Machine) : Option (Int × Machine) :=
  handleFitHeader platform decode platform.kernelDataStart
    platform.kernImageLen m

def Layout.Accepts (layout : Layout) (m : Machine) (image : FitImage) : Prop :=
  Fit.Accepted m.mem layout.kernelDataStart layout.kernImageLen image

instance (layout : Layout) (m : Machine) (image : FitImage) :
    Decidable (layout.Accepts m image) :=
  decidable_of_iff _ Fit.checkFitHeader_eq_ok

namespace Fit

/-! What the handler does with an image that its checks have let through. -/

/-- The copy of the device tree does not end in the last bytes of memory, and
so comes to an end. -/
def DtbCopyEnds (image : FitImage) : Prop :=
  (image.dtb.ptr + image.dtb.len).toNat + 4 < 2 ^ 32 + image.dtb.ptr.toNat % 4

section Stage

variable (platform : Platform) (decode : LzmaDecoder) (image : FitImage)
  (m : Machine)

/-- Memory as the LZMA stage finds it, with the page table in place. -/
def cachedMem : Memory :=
  if mmuEnabled m then m.mem
  else fillPageTable platform.pageTable image.kernelLoad
    (image.kernel.ptr - image.kernelLoad + 0x2000000) m.mem

def unpack : Int × Memory :=
  (lzmaGogogo decode (cachedMem platform image m) platform.workspace
    image.kernelLoad image.kernel.ptr image.kernel.len).val

def unpackedMem : Memory :=
  if image.kernelLoad < image.kernel.ptr then
    (unpack platform decode image m).2
  else m.mem

def stageEvents : List Event :=
  if image.kernelLoad < image.kernel.ptr then
    [.lzmaGogogo image.kernelLoad image.kernel.ptr image.kernel.len
      (unpack platform decode image m).1]
  else []

/-- All that happens to an accepted image until the handler returns 0. -/
structure Booted (next : Machine) : Prop where
  kernelEntry : next.kernelEntry = image.kernelEp
  kernelP0 : next.kernelP0 = m.kernelP0
  kernelP1 : next.kernelP1 = m.kernelP1
  kernelP2 : next.kernelP2 = platform.workspace
  log : ∃ before after,
    next.log = m.log ++ (before ++ stageEvents platform decode image m ++ after) ∧
    ∀ la data size res, .lzmaGogogo la data size res ∉ before ++ after
  copy : (myMemcpy (unpackedMem platform decode image m) platform.workspace
    image.dtb.ptr image.dtb.len).val = some next.mem

theorem extractKernel_coreStep :
    ∃ ready, m.CoreStep ready ∧
      extractKernel platform decode image m =
        { ready with mem := (unpack platform decode image m).2 }.emit
          (.lzmaGogogo image.kernelLoad image.kernel.ptr image.kernel.len
            (unpack platform decode image m).1) := by
  let ranged := biDram0SetRanges image.kernelLoad
    (image.kernel.ptr - image.kernelLoad + 0x2000000) m
  have set : m.CoreStep ranged :=
    ⟨rfl, rfl, rfl, rfl, rfl, [], by simp [ranged, biDram0SetRanges], by simp⟩
  have cached : (enableCaches platform ranged).mem =
      cachedMem platform image m :=
    enableCaches_mem platform ranged
  refine ⟨_, set.trans (enableCaches_coreStep platform ranged), ?_⟩
  simp only [extractKernel, unpack, ← cached]
  rfl

/-- The state in which the copy of the device tree starts. -/
structure CopyReady (ready : Machine) : Prop where
  boots : bootFitImage platform decode image m =
    (myMemcpy (unpackedMem platform decode image m) platform.workspace
      image.dtb.ptr image.dtb.len).val.map fun mem =>
        { ready with mem := mem, kernelEntry := image.kernelEp,
                     kernelP2 := platform.workspace }
  kernelP0 : ready.kernelP0 = m.kernelP0
  kernelP1 : ready.kernelP1 = m.kernelP1
  log : ∃ before after,
    ready.log =
      m.log ++ (before ++ stageEvents platform decode image m ++ after) ∧
    ∀ la data size res, .lzmaGogogo la data size res ∉ before ++ after

theorem copyReady_of_below (below : image.kernelLoad < image.kernel.ptr) :
    ∃ ready, CopyReady platform decode image m ready := by
  let started := watchdogSetup platform.cpuType 30 m
  have watched : m.CoreStep started := watchdogSetup_coreStep _ _ _
  obtain ⟨ready, step, stage⟩ :=
    extractKernel_coreStep platform decode image started
  have first := watched.trans step
  have last := cleanupBeforeLinux_coreStep platform
    (extractKernel platform decode image started)
  obtain ⟨before, beforeLog, beforeQuiet⟩ := first.log
  obtain ⟨after, afterLog, afterQuiet⟩ := last.log
  refine ⟨cleanupBeforeLinux platform
    (extractKernel platform decode image started), ?_, ?_, ?_, before, after,
    ?_, ?_⟩
  · simp only [bootFitImage, if_pos below, unpackedMem, cleanupBeforeLinux_mem]
    rw [show watchdogSetup platform.cpuType 30 m = started from rfl, stage]
    rfl
  · rw [last.kernelP0, stage]
    exact first.kernelP0
  · rw [last.kernelP1, stage]
    exact first.kernelP1
  · rw [afterLog, stage, stageEvents, if_pos below]
    simp only [Machine.emit, beforeLog, List.append_assoc]
    rfl
  · intro la data size res member
    rcases List.mem_append.mp member with early | late
    · exact beforeQuiet la data size res early
    · exact afterQuiet la data size res late

theorem copyReady_of_not_below
    (skipped : ¬ image.kernelLoad < image.kernel.ptr) :
    ∃ ready, CopyReady platform decode image m ready := by
  let started := watchdogSetup platform.cpuType 30 m
  have watched : m.CoreStep started := watchdogSetup_coreStep _ _ _
  have last := watched.trans (cleanupBeforeLinux_coreStep platform started)
  obtain ⟨events, log, quiet⟩ := last.log
  refine ⟨cleanupBeforeLinux platform started, ?_, last.kernelP0,
    last.kernelP1, events, [], ?_, ?_⟩
  · simp only [bootFitImage, if_neg skipped, unpackedMem,
      cleanupBeforeLinux_mem]
    rfl
  · simp [log, stageEvents, if_neg skipped]
  · simpa using quiet

theorem exists_copyReady : ∃ ready, CopyReady platform decode image m ready := by
  by_cases below : image.kernelLoad < image.kernel.ptr
  · exact copyReady_of_below platform decode image m below
  · exact copyReady_of_not_below platform decode image m below

variable {platform decode image m}

theorem bootFitImage_isSome_iff :
    (bootFitImage platform decode image m).isSome ↔ DtbCopyEnds image := by
  obtain ⟨ready, copyReady⟩ := exists_copyReady platform decode image m
  rw [copyReady.boots, Option.isSome_map, myMemcpy_isSome_iff]
  rfl

theorem bootFitImage_booted {next : Machine}
    (returned : bootFitImage platform decode image m = some next) :
    Booted platform decode image m next := by
  obtain ⟨ready, copyReady⟩ := exists_copyReady platform decode image m
  rw [copyReady.boots] at returned
  obtain ⟨mem, copied, rfl⟩ := Option.map_eq_some_iff.mp returned
  exact ⟨rfl, copyReady.kernelP0, copyReady.kernelP1, rfl, copyReady.log,
    copied⟩

theorem Booted.happens_iff {next : Machine}
    (booted : Booted platform decode image m next) {la data size : Word}
    {res : Int} :
    m.Happens next (.lzmaGogogo la data size res) ↔
      .lzmaGogogo la data size res ∈ stageEvents platform decode image m := by
  obtain ⟨before, after, log, quiet⟩ := booted.log
  constructor
  · intro ⟨events, sameLog, member⟩
    rw [List.append_cancel_left (sameLog.symm.trans log)] at member
    have apart := quiet la data size res
    simp only [List.mem_append, not_or] at member apart
    exact (member.resolve_right apart.2).resolve_left apart.1
  · intro member
    exact ⟨_, log, by simp [member]⟩

end Stage

section Handler

variable {platform : Platform} {decode : LzmaDecoder} {m next : Machine}
  {image : FitImage}

/-- The handler hangs in a lookup, gives up, or boots what it has found. -/
theorem handleFit_cases :
    (LookupHangs m.mem platform.kernelDataStart ∧
        platform.handleFit decode m = none) ∨
      (∃ code : Int, code ≤ -93 ∧
        platform.handleFit decode m = some (code, m)) ∨
      ∃ image, platform.Accepts m image ∧
        platform.handleFit decode m =
          (bootFitImage platform decode image m).map fun m => (0, m) := by
  have fails := checkFitHeader_fails m.mem platform.kernelDataStart
    platform.kernImageLen
  unfold Platform.handleFit handleFitHeader
  cases checks : (checkFitHeader m.mem platform.kernelDataStart
      platform.kernImageLen).run with
  | none => exact .inl ⟨fails.hangs checks, rfl⟩
  | some result =>
      cases result with
      | error code => exact .inr (.inl ⟨code, (fails.error code checks).2, rfl⟩)
      | ok image =>
          exact .inr (.inr ⟨image, checkFitHeader_eq_ok.mp checks, rfl⟩)

/-- A handler that gives up has changed nothing. -/
theorem handleFit_failed {code : Int} (nonzero : code ≠ 0)
    (returned : platform.handleFit decode m = some (code, next)) : next = m := by
  rcases @handleFit_cases platform decode m with
    ⟨_, hangs⟩ | ⟨_, _, gaveUp⟩ | ⟨image, _, boots⟩
  · rw [hangs] at returned
    cases returned
  · rw [gaveUp] at returned
    cases returned
    rfl
  · rw [boots] at returned
    obtain ⟨_, _, same⟩ := Option.map_eq_some_iff.mp returned
    exact absurd (congrArg Prod.fst same).symm nonzero

theorem handleFit_boots
    (returned : platform.handleFit decode m = some (0, next)) :
    ∃ image, platform.Accepts m image ∧
      bootFitImage platform decode image m = some next := by
  rcases @handleFit_cases platform decode m with
    ⟨_, hangs⟩ | ⟨code, low, gaveUp⟩ | ⟨image, accepts, boots⟩
  · rw [hangs] at returned
    cases returned
  · rw [gaveUp] at returned
    cases returned
    exact absurd low (by decide)
  · rw [boots] at returned
    obtain ⟨_, booted, same⟩ := Option.map_eq_some_iff.mp returned
    cases same
    exact ⟨image, accepts, booted⟩

/-- What the return code 0 stands for. -/
theorem handleFit_zero
    (returned : platform.handleFit decode m = some (0, next)) :
    ∃ image, platform.Accepts m image ∧ DtbCopyEnds image ∧
      Booted platform decode image m next := by
  obtain ⟨image, accepts, booted⟩ := handleFit_boots returned
  exact ⟨image, accepts,
    bootFitImage_isSome_iff.mp (Option.isSome_of_eq_some booted),
    bootFitImage_booted booted⟩

theorem handleFit_returns (decode : LzmaDecoder)
    (accepts : platform.Accepts m image) (ends : DtbCopyEnds image) :
    ∃ next, platform.handleFit decode m = some (0, next) ∧
      Booted platform decode image m next := by
  obtain ⟨next, booted⟩ := Option.isSome_iff_exists.mp
    ((@bootFitImage_isSome_iff platform decode image m).mpr ends)
  refine ⟨next, ?_, bootFitImage_booted booted⟩
  simp only [Platform.handleFit, handleFitHeader,
    checkFitHeader_eq_ok.mpr accepts, booted]
  rfl

theorem handleFit_endless (decode : LzmaDecoder)
    (accepts : platform.Accepts m image) (top : ¬ DtbCopyEnds image) :
    platform.handleFit decode m = none := by
  simp only [Platform.handleFit, handleFitHeader,
    checkFitHeader_eq_ok.mpr accepts, Option.map_eq_none_iff]
  rwa [← Option.not_isSome_iff_eq_none, bootFitImage_isSome_iff]

theorem handleFit_hangs (hangs : platform.handleFit decode m = none) :
    LookupHangs m.mem platform.kernelDataStart ∨
      ∃ image, platform.Accepts m image ∧ ¬ DtbCopyEnds image := by
  rcases @handleFit_cases platform decode m with
    ⟨lookup, _⟩ | ⟨_, _, gaveUp⟩ | ⟨image, accepts, boots⟩
  · exact .inl lookup
  · rw [gaveUp] at hangs
    cases hangs
  · refine .inr ⟨image, accepts, fun ends => ?_⟩
    obtain ⟨_, returned, _⟩ := handleFit_returns decode accepts ends
    rw [hangs] at returned
    cases returned

end Handler

end Fit

end AuxLoader
