import AuxLoader.Fit.Unpack
import AuxLoader.Legacy

namespace AuxLoader

open Data Fdt

/-! Runs of the loader as a whole. -/

section Handlers

variable (platform : Platform) (decode : LzmaDecoder) (m : Machine)

def Platform.magic : Word := m.mem.beWord platform.kernelDataStart

inductive HandlerReturns : Int → Machine → Prop
  | legacy {ret : Int} {next : Machine}
      (magic : platform.magic m = legacyIhMagic)
      (returned : platform.handleLegacy m = some (ret, next)) :
      HandlerReturns ret next
  | fit {ret : Int} {next : Machine}
      (magic : platform.magic m = fitIhMagic)
      (returned : platform.handleFit decode m = some (ret, next)) :
      HandlerReturns ret next

def KnownMagic : Prop :=
  platform.magic m = legacyIhMagic ∨ platform.magic m = fitIhMagic

/-- Where each format has the entry point, and what it passes on. -/
inductive BootParameters : (entry params : Word) → Prop
  | legacy (magic : platform.magic m = legacyIhMagic) :
      BootParameters (platform.legacyEp m) 0
  | fit (magic : platform.magic m = fitIhMagic) {r : PropResult}
      (found : Fit.Finds m.mem platform.kernelDataStart fitKernelNodeName
        (.lit "entry") r) :
      BootParameters (m.mem.beWord r.ptr) platform.workspace

/-- The lookups in the image come to an end, if there are any. -/
def LookupsEnd : Prop :=
  platform.magic m = fitIhMagic → ∀ names ∈ Fit.fitLookups,
    (fdtGetProp m.mem platform.kernelDataStart names.1 names.2).val.isSome

/-- The image passes the checks, and has what is to be copied end in the last
bytes of the address space: a payload in a legacy image, the device tree in a
FIT image. -/
inductive CopyMeetsTop : Prop
  | legacy (magic : platform.magic m = legacyIhMagic)
      (passes : ¬ platform.kernImageLen - LegacyImageHeader.size <
        platform.legacySize m)
      (top : 2 ^ 32 + platform.legacyPayload.toNat % 4 ≤
        (platform.legacyPayload + platform.legacySize m).toNat + 4)
  | fit (magic : platform.magic m = fitIhMagic) {image : FitImage}
      (accepts : platform.Accepts m image) (top : ¬ Fit.DtbCopyEnds image)

variable {platform decode m}

theorem handleImage_legacy (magic : platform.magic m = legacyIhMagic) :
    handleImage platform decode m = platform.handleLegacy m := by
  simp only [handleImage, ntohl_word]
  exact if_pos magic

theorem handleImage_fit (magic : platform.magic m = fitIhMagic) :
    handleImage platform decode m = platform.handleFit decode m := by
  have other : platform.magic m ≠ legacyIhMagic := by
    rw [magic]
    decide
  simp only [handleImage, ntohl_word]
  exact (if_neg other).trans (if_pos magic)

theorem handleImage_unknown (unknown : ¬ KnownMagic platform m) :
    handleImage platform decode m = some (-100, m) := by
  obtain ⟨legacy, fit⟩ := not_or.mp unknown
  simp only [handleImage, ntohl_word]
  exact (if_neg legacy).trans (if_neg fit)

theorem handlerReturns_iff {ret : Int} {next : Machine}
    (known : KnownMagic platform m) :
    HandlerReturns platform decode m ret next ↔
      handleImage platform decode m = some (ret, next) := by
  constructor
  · intro returns
    cases returns with
    | legacy magic returned => rw [handleImage_legacy magic, returned]
    | fit magic returned => rw [handleImage_fit magic, returned]
  · intro returned
    rcases known with magic | magic
    · exact .legacy magic ((handleImage_legacy magic).symm.trans returned)
    · exact .fit magic ((handleImage_fit magic).symm.trans returned)

theorem HandlerReturns.known {ret : Int} {next : Machine}
    (returns : HandlerReturns platform decode m ret next) :
    KnownMagic platform m := by
  cases returns with
  | legacy magic _ => exact .inl magic
  | fit magic _ => exact .inr magic

/-- Past the lookups it is only a copy at the top that never ends. -/
theorem handleImage_eq_none_iff (lookups : LookupsEnd platform m) :
    handleImage platform decode m = none ↔ CopyMeetsTop platform m := by
  have copyEnds := myMemcpy_isSome_iff m.mem (platform.legacyLoad m)
    platform.legacyPayload (platform.legacySize m)
  constructor
  · intro hangs
    by_cases known : KnownMagic platform m
    · rcases known with magic | magic
      · rw [handleImage_legacy magic, handleLegacy_eq] at hangs
        split at hangs
        next => cases hangs
        next passes =>
          refine .legacy magic passes (Nat.le_of_not_lt fun ends => ?_)
          have returns := copyEnds.mpr ends
          rw [Option.map_eq_none_iff.mp hangs] at returns
          cases returns
      · rw [handleImage_fit magic] at hangs
        rcases Fit.handleFit_hangs hangs with
          ⟨names, member, endless⟩ | ⟨image, accepts, top⟩
        · have ends := lookups magic names member
          rw [endless] at ends
          cases ends
        · exact .fit magic accepts top
    · rw [handleImage_unknown known] at hangs
      cases hangs
  · rintro (⟨magic, passes, top⟩ | ⟨magic, accepts, top⟩)
    · rw [handleImage_legacy magic, handleLegacy_eq, if_neg passes,
        Option.map_eq_none_iff, ← Option.not_isSome_iff_eq_none, copyEnds]
      exact Nat.not_lt.mpr top
    · rw [handleImage_fit magic]
      exact Fit.handleFit_endless decode accepts top

/-- Every failure comes before the first change. -/
theorem handleImage_unchanged {ret : Int} {next : Machine}
    (returned : handleImage platform decode m = some (ret, next))
    (failed : ret ≠ 0) : next = m := by
  by_cases known : KnownMagic platform m
  · rcases known with magic | magic
    · rw [handleImage_legacy magic] at returned
      rcases handleLegacy_cases returned with ⟨_, same⟩ | ⟨zero, _⟩
      · exact same
      · exact absurd zero failed
    · rw [handleImage_fit magic] at returned
      exact Fit.handleFit_failed failed returned
  · rw [handleImage_unknown known] at returned
    cases returned
    rfl

theorem HandlerReturns.bootParameters {next : Machine}
    (returns : HandlerReturns platform decode m 0 next)
    (fresh : m.kernelP2 = 0) :
    next.kernelP0 = m.kernelP0 ∧ next.kernelP1 = m.kernelP1 ∧
      BootParameters platform m next.kernelEntry next.kernelP2 := by
  cases returns with
  | legacy magic returned =>
      rcases handleLegacy_cases returned with ⟨zero, _⟩ | ⟨_, now, rfl⟩
      · exact absurd zero (by decide)
      · refine ⟨rfl, rfl, ?_⟩
        rw [fresh]
        exact .legacy magic
  | fit magic returned =>
      obtain ⟨image, accepts, _, booted⟩ := Fit.handleFit_zero returned
      refine ⟨booted.kernelP0, booted.kernelP1, ?_⟩
      rw [booted.kernelEntry, booted.kernelP2, accepts.kernelEp]
      exact .fit magic accepts.entry

end Handlers

section Main

variable (platform : Platform) (decode : LzmaDecoder) (arch : Word)
  (mem : Memory) (cr : Word)

def entered : Machine :=
  { Machine.boot mem cr with arch := arch, kernelP1 := arch }

def run : Option Outcome :=
  loaderMain platform decode arch (.boot mem cr)

def CallsKernel (entry zero arg params : Word) : Prop :=
  ∃ last, run platform decode arch mem cr =
    some (.kernelCall entry zero arg params last)

/-- A watchdog is stopped and restarted, its bark and its bite are set to 5
seconds, of 65536 ticks each or of 32768, and it is started. -/
def fiveSecondReset : CpuType → List Event
  | .ipq4xxx =>
      [.writel 0 0xb017008, .writel 1 0xb017004, .writel 327680 0xb017010,
        .writel 327680 0xb017014, .writel 1 0xb017008]
  | .ipq806x =>
      [.writel 0 0x200a040, .writel 1 0x200a038, .writel 163840 0x200a04c,
        .writel 163840 0x200a05c, .writel 1 0x200a040, .writel 1 0x903820]

/-- The run ends in the watchdog loop, and has done nothing but set the
watchdog to 5 seconds. -/
def OnlyResets : Prop :=
  ∃ last, run platform decode arch mem cr = some (.watchdogLoop last) ∧
    last.mem = mem ∧ last.cr = cr ∧
    last.kernelEntry = (Machine.boot mem cr).kernelEntry ∧
    last.kernelP2 = (Machine.boot mem cr).kernelP2 ∧
    last.log = fiveSecondReset platform.cpuType

variable {platform decode arch mem cr}

theorem watchdogWrites_five (cpuType : CpuType) :
    watchdogWrites cpuType 5 = fiveSecondReset cpuType := by
  cases cpuType <;> rfl

theorem run_wrongArch (wrong : arch ≠ ipqArch) :
    run platform decode arch mem cr =
      some (.watchdogLoop (watchdogSetup platform.cpuType 5
        (entered arch mem cr))) :=
  if_pos wrong

theorem run_ipqArch :
    run platform decode ipqArch mem cr =
      (handleImage platform decode (entered ipqArch mem cr)).map
        (finish platform) := by
  rw [run, loaderMain, if_neg (not_not_intro rfl)]
  rfl

theorem onlyResets_of_unchanged
    (ends : run platform decode arch mem cr =
      some (.watchdogLoop (watchdogSetup platform.cpuType 5
        (entered arch mem cr)))) :
    OnlyResets platform decode arch mem cr :=
  ⟨_, ends, rfl, rfl, rfl, rfl, watchdogWrites_five platform.cpuType⟩

theorem run_of_failed {ret : Int} {next : Machine} (failed : ret ≠ 0)
    (returned : handleImage platform decode (entered ipqArch mem cr) =
      some (ret, next)) :
    run platform decode ipqArch mem cr =
      some (.watchdogLoop (watchdogSetup platform.cpuType 5 next)) := by
  rw [run_ipqArch, returned, Option.map_some, finish, if_pos failed]

theorem run_of_returned {next : Machine}
    (returned : handleImage platform decode (entered ipqArch mem cr) =
      some (0, next)) :
    ∃ last, next.CoreStep last ∧
      run platform decode ipqArch mem cr =
        some (.kernelCall last.kernelEntry last.kernelP0 last.kernelP1
          last.kernelP2 last) := by
  refine ⟨_, cleanupBeforeLinux_coreStep platform next, ?_⟩
  rw [run_ipqArch, returned, Option.map_some, finish,
    if_neg (not_not_intro rfl)]

theorem run_of_handled {next : Machine}
    (handled : handleImage platform decode (entered ipqArch mem cr) =
      some (0, next)) :
    run platform decode ipqArch mem cr =
      some (.kernelCall next.kernelEntry next.kernelP0 next.kernelP1
        next.kernelP2 (cleanupBeforeLinux platform next)) := by
  have step := cleanupBeforeLinux_coreStep platform next
  rw [run_ipqArch, handled, Option.map_some, finish,
    if_neg (not_not_intro rfl)]
  simp only [step.kernelEntry, step.kernelP0, step.kernelP1, step.kernelP2]

/-- How a run comes to enter the kernel. -/
theorem kernelCall_last {entry zero arg params : Word} {last : Machine}
    (called : run platform decode arch mem cr =
      some (.kernelCall entry zero arg params last)) :
    arch = ipqArch ∧ ∃ next,
      handleImage platform decode (entered arch mem cr) = some (0, next) ∧
        last = cleanupBeforeLinux platform next ∧
        entry = last.kernelEntry ∧ zero = last.kernelP0 ∧
        arg = last.kernelP1 ∧ params = last.kernelP2 := by
  by_cases wrong : arch ≠ ipqArch
  · rw [run_wrongArch wrong] at called
    cases called
  · cases not_not.mp wrong
    rw [run_ipqArch] at called
    obtain ⟨⟨ret, next⟩, returned, finished⟩ := Option.map_eq_some_iff.mp called
    by_cases failed : ret ≠ 0
    · rw [finish, if_pos failed] at finished
      cases finished
    · cases not_not.mp failed
      rw [finish, if_neg failed] at finished
      cases finished
      exact ⟨rfl, next, returned, rfl, rfl, rfl, rfl, rfl⟩

theorem CallsKernel.returned {entry zero arg params : Word}
    (calls : CallsKernel platform decode arch mem cr entry zero arg params) :
    arch = ipqArch ∧ ∃ next,
      HandlerReturns platform decode (entered arch mem cr) 0 next ∧
        zero = next.kernelP0 ∧ arg = next.kernelP1 ∧
        entry = next.kernelEntry ∧ params = next.kernelP2 := by
  obtain ⟨last, called⟩ := calls
  obtain ⟨right, next, returned, rfl, rfl, rfl, rfl, rfl⟩ :=
    kernelCall_last called
  have known : KnownMagic platform (entered arch mem cr) := by
    by_contra unknown
    rw [handleImage_unknown unknown] at returned
    cases returned
  have step := cleanupBeforeLinux_coreStep platform next
  exact ⟨right, next, (handlerReturns_iff known).mpr returned,
    step.kernelP0, step.kernelP1, step.kernelEntry, step.kernelP2⟩

end Main

section Contract

variable (platform : Platform) (decode : LzmaDecoder) (arch : Word)
  (mem : Memory) (cr : Word)

/-- What a run may do: call the kernel after a handler has returned 0, with the
parameters of the image, or reset after a failure, with nothing changed. -/
structure BootContract : Prop where
  calls_iff :
    (∃ entry zero arg params,
        CallsKernel platform decode arch mem cr entry zero arg params) ↔
      arch = ipqArch ∧
        ∃ next, HandlerReturns platform decode (entered arch mem cr) 0 next
  parameters : ∀ entry zero arg params,
    CallsKernel platform decode arch mem cr entry zero arg params →
      zero = 0 ∧ arg = 4200 ∧
        BootParameters platform (entered arch mem cr) entry params
  resets :
    (¬ ∃ entry zero arg params,
        CallsKernel platform decode arch mem cr entry zero arg params) →
      OnlyResets platform decode arch mem cr

variable {platform decode arch mem cr}

theorem callsKernel_iff :
    (∃ entry zero arg params,
        CallsKernel platform decode arch mem cr entry zero arg params) ↔
      arch = ipqArch ∧
        ∃ next, HandlerReturns platform decode (entered arch mem cr) 0 next := by
  constructor
  · intro ⟨entry, zero, arg, params, calls⟩
    obtain ⟨right, next, returns, _⟩ := calls.returned
    exact ⟨right, next, returns⟩
  · rintro ⟨rfl, next, returns⟩
    have returned := (handlerReturns_iff returns.known).mp returns
    obtain ⟨last, _, called⟩ := run_of_returned returned
    exact ⟨_, _, _, _, last, called⟩

theorem CallsKernel.bootParameters {entry zero arg params : Word}
    (calls : CallsKernel platform decode arch mem cr entry zero arg params) :
    zero = 0 ∧ arg = 4200 ∧
      BootParameters platform (entered arch mem cr) entry params := by
  obtain ⟨rfl, next, returns, rfl, rfl, rfl, rfl⟩ := calls.returned
  exact returns.bootParameters rfl

/-- A run that comes to an end enters the kernel or resets. -/
theorem onlyResets_of_run {outcome : Outcome}
    (ends : run platform decode arch mem cr = some outcome)
    (noCall : ¬ ∃ entry zero arg params,
      CallsKernel platform decode arch mem cr entry zero arg params) :
    OnlyResets platform decode arch mem cr := by
  apply onlyResets_of_unchanged
  by_cases wrong : arch ≠ ipqArch
  · exact run_wrongArch wrong
  · cases not_not.mp wrong
    rw [run_ipqArch] at ends
    obtain ⟨⟨ret, next⟩, returned, _⟩ := Option.map_eq_some_iff.mp ends
    by_cases failed : ret ≠ 0
    · cases handleImage_unchanged returned failed
      exact run_of_failed failed returned
    · cases not_not.mp failed
      obtain ⟨last, _, called⟩ := run_of_returned returned
      exact absurd ⟨_, _, _, _, last, called⟩ noCall

/-- A run hangs in a copy, and only for the right machine type. -/
theorem run_eq_none_iff
    (lookups : LookupsEnd platform (entered arch mem cr)) :
    run platform decode arch mem cr = none ↔
      arch = ipqArch ∧ CopyMeetsTop platform (entered arch mem cr) := by
  by_cases wrong : arch ≠ ipqArch
  · rw [run_wrongArch wrong]
    exact iff_of_false nofun fun top => wrong top.1
  · cases not_not.mp wrong
    rw [run_ipqArch, Option.map_eq_none_iff, handleImage_eq_none_iff lookups]
    exact (and_iff_right rfl).symm

end Contract

/-- With lookups that come to an end, a run does what it may do exactly if the
image has no copy end in the last bytes of the address space. -/
theorem run_contract_iff (platform : Platform) (decode : LzmaDecoder)
    (arch : Word) (mem : Memory) (cr : Word)
    (lookups : LookupsEnd platform (entered arch mem cr)) :
    BootContract platform decode arch mem cr ↔
      (arch = ipqArch → ¬ CopyMeetsTop platform (entered arch mem cr)) := by
  rw [← not_and, ← @run_eq_none_iff platform decode arch mem cr lookups]
  constructor
  · intro contract hangs
    have noCall : ¬ ∃ entry zero arg params,
        CallsKernel platform decode arch mem cr entry zero arg params := by
      rintro ⟨_, _, _, _, last, called⟩
      cases hangs.symm.trans called
    obtain ⟨last, ends, _⟩ := contract.resets noCall
    cases hangs.symm.trans ends
  · intro returns
    obtain ⟨outcome, ends⟩ := Option.ne_none_iff_exists'.mp returns
    exact ⟨callsKernel_iff, fun _ _ _ _ calls => calls.bootParameters,
      onlyResets_of_run ends⟩

theorem run_contract_iff_corrupt :
    BootContract (Fit.linkedPlatform 252 (by decide)) Fit.rejectAll ipqArch
      Fit.corruptMachine.mem 0 := by
  refine (run_contract_iff (Fit.linkedPlatform 252 (by decide)) Fit.rejectAll
    ipqArch Fit.corruptMachine.mem 0 fun _ => by decide +kernel).mpr
      fun _ top => ?_
  cases top with
  | legacy magic _ _ => exact absurd magic (by decide +kernel)
  | fit _ accepts top =>
      have same : (Fit.linkedPlatform 252 (by decide)).Accepts
          (entered ipqArch Fit.corruptMachine.mem 0) Fit.corruptImage := by
        decide +kernel
      cases accepts.unique same
      exact top (by unfold Fit.DtbCopyEnds; decide)

/-- The image of a kernel that is not unpacked, and of a device tree that
claims to reach up to the last word of the address space. -/
def topDtbMemory : Memory :=
  let whole := Fit.fitBytes
    (Fit.kernelNode 0x90000000 [0x5d, 0, 0, 0x80] ++
      Fit.dtbNode [0xd0, 0x0d, 0xfe, 0xed]) 0
  .ofBytes 0x84805000
    (whole.take 224 ++ Memory.beBytes 0x7b7faf14 ++ whole.drop 228)

def topDtbImage : FitImage where
  kernelName := ⟨0x84805080, 6⟩
  load := ⟨0x84805094, 4⟩
  kernelLoad := 0x90000000
  entry := ⟨0x848050a4, 4⟩
  kernelEp := 0x90000000
  kernel := ⟨0x848050b4, 4⟩
  kernelCompr := ⟨0x848050c4, 5⟩
  dtb := ⟨0x848050e8, 0x7b7faf14⟩

theorem run_topDtb_hangs :
    LookupsEnd (Fit.linkedPlatform 252 (by decide))
        (entered ipqArch topDtbMemory 0) ∧
      ¬ BootContract (Fit.linkedPlatform 252 (by decide)) Fit.rejectAll ipqArch
        topDtbMemory 0 := by
  have lookups : LookupsEnd (Fit.linkedPlatform 252 (by decide))
      (entered ipqArch topDtbMemory 0) := fun _ => by decide +kernel
  have accepts : (Fit.linkedPlatform 252 (by decide)).Accepts
      (entered ipqArch topDtbMemory 0) topDtbImage := by decide +kernel
  have hangs := (@run_eq_none_iff _ Fit.rejectAll _ _ 0 lookups).mpr
    ⟨rfl, .fit (by decide +kernel) accepts (by unfold Fit.DtbCopyEnds; decide)⟩
  refine ⟨lookups, fun contract => ?_⟩
  obtain ⟨last, ends, _⟩ := contract.resets fun ⟨_, _, _, _, last, called⟩ => by
    cases hangs.symm.trans called
  cases hangs.symm.trans ends

end AuxLoader
