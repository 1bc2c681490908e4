import AuxLoader.Boot
import AuxLoader.Dcache
import AuxLoader.Fit.Unpack

namespace AuxLoader

open Data

/-! The control register along a run, and the flushes before its D-cache bit is
cleared. -/

def Event.crNext (cr : Word) : Event → Word
  | .setCr value => value
  | _ => cr

/-- The control register after the events. -/
def crAfter (start : Word) (events : List Event) : Word :=
  events.foldl Event.crNext start

/-- What `flush_dcache_all` issues. -/
def flushEvents (platform : Platform) : List Event :=
  ((dcacheLines platform).map platform.operand).map
    (.dcacheSetway .cleanInvalAll)

/-- Every write that clears a set D-cache bit comes right after a flush that was
issued with the bit still set. -/
def FlushesFirst (platform : Platform) (start : Word) (events : List Event) :
    Prop :=
  ∀ before value after, events = before ++ .setCr value :: after →
    crAfter start before &&& crC ≠ 0 → value &&& crC = 0 →
    ∃ earlier, before = earlier ++ flushEvents platform ∧
      crAfter start earlier &&& crC ≠ 0

structure ControlTrace (platform : Platform) (start : Word) (m : Machine) :
    Prop where
  cr : m.cr = crAfter start m.log
  flushes : FlushesFirst platform start m.log

section Bits

theorem and_bit_eq_zero_iff {reg : Word} {i : Nat} (bound : i < 32) :
    reg &&& BitVec.twoPow 32 i = 0 ↔ reg.getLsbD i = false := by
  have nonzero : BitVec.twoPow 32 i ≠ 0#32 := by
    intro zero
    have bit := congrArg (fun word => word.getLsbD i) zero
    simp [bound] at bit
  rw [BitVec.and_twoPow]
  cases reg.getLsbD i with
  | false => exact iff_of_true rfl rfl
  | true => exact iff_of_false nonzero (by decide)

theorem and_crC_eq_zero_iff {reg : Word} :
    reg &&& crC = 0 ↔ reg.getLsbD 2 = false :=
  and_bit_eq_zero_iff (by decide)

theorem and_crC_ne_iff {reg : Word} :
    reg &&& crC ≠ crC ↔ reg &&& crC = 0 := by
  rw [and_crC_eq_zero_iff, show crC = BitVec.twoPow 32 2 from rfl,
    BitVec.and_twoPow]
  cases reg.getLsbD 2 <;> decide

theorem mask_cleared {mask bit : Word} (reg : Word) (apart : mask &&& bit = 0) :
    reg &&& mask &&& bit = 0 := by
  rw [BitVec.and_assoc, apart]
  exact BitVec.and_zero

theorem mask_kept {mask bit : Word} (reg : Word) (inside : mask &&& bit = bit) :
    reg &&& mask &&& bit = reg &&& bit := by
  rw [BitVec.and_assoc, inside]

end Bits

/-! One event after another. -/

section Trace

variable {platform : Platform} {start : Word} {m : Machine}

theorem crAfter_append (events others : List Event) :
    crAfter start (events ++ others) = crAfter (crAfter start events) others :=
  List.foldl_append

theorem FlushesFirst.snoc {events : List Event} {event : Event}
    (prior : FlushesFirst platform start events)
    (last : ∀ value, event = .setCr value →
      crAfter start events &&& crC ≠ 0 → value &&& crC = 0 →
      ∃ earlier, events = earlier ++ flushEvents platform ∧
        crAfter start earlier &&& crC ≠ 0) :
    FlushesFirst platform start (events ++ [event]) := by
  intro before value after split set clears
  rcases List.eq_nil_or_concat after with rfl | ⟨shorter, final, rfl⟩
  · obtain ⟨rfl, same⟩ := List.append_inj' split rfl
    exact last value (List.head_eq_of_cons_eq same) set clears
  · rw [List.concat_eq_append, ← List.cons_append, ← List.append_assoc] at split
    obtain ⟨rfl, _⟩ := List.append_inj' split rfl
    exact prior before value shorter rfl set clears

theorem ControlTrace.quiet (trace : ControlTrace platform start m)
    (event : Event) (other : ∀ value, event ≠ .setCr value) :
    ControlTrace platform start (m.emit event) where
  cr := by
    rw [Machine.emit, crAfter_append, ← trace.cr]
    cases event with
    | setCr value => exact absurd rfl (other value)
    | _ => rfl
  flushes := trace.flushes.snoc fun value same => absurd same (other value)

theorem ControlTrace.events {events : List Event}
    (trace : ControlTrace platform start m)
    (quiet : ∀ event ∈ events, ∀ value, event ≠ .setCr value) :
    ControlTrace platform start { m with log := m.log ++ events } := by
  induction events generalizing m with
  | nil => simpa using trace
  | cons event rest ih =>
      have step := ih (trace.quiet event (quiet event List.mem_cons_self))
        fun other member => quiet other (List.mem_cons_of_mem event member)
      simpa [Machine.emit] using step

theorem ControlTrace.setCr {value : Word} (trace : ControlTrace platform start m)
    (keeps : m.cr &&& crC ≠ 0 → value &&& crC ≠ 0) :
    ControlTrace platform start (m.setCr value) where
  cr := by
    rw [Machine.setCr, Machine.emit, crAfter_append]
    rfl
  flushes := by
    apply trace.flushes.snoc
    intro written same set clears
    cases same
    rw [← trace.cr] at set
    exact absurd clears (keeps set)

theorem ControlTrace.maintain (trace : ControlTrace platform start m)
    (operation : DcacheOp) :
    ControlTrace platform start (v7MaintDcacheAll platform operation m) := by
  apply v7MaintDcacheAll_induct platform _ m trace
  intro next operand prior
  exact prior.quiet _ (by simp)

end Trace

/-! What the steps of the loader do to the register. -/

section Steps

variable {platform : Platform} {start : Word} {m : Machine}

theorem flushDcacheAll_eq (m : Machine) :
    flushDcacheAll platform m =
      { m with log := m.log ++ flushEvents platform } :=
  v7MaintDcacheAll_eq .cleanInvalAll m

theorem ControlTrace.setBit (trace : ControlTrace platform start m)
    (bit : Word) : ControlTrace platform start (m.setCr (m.cr ||| bit)) := by
  apply trace.setCr
  intro set
  rw [ne_eq, and_crC_eq_zero_iff] at set ⊢
  rw [BitVec.getLsbD_or, Bool.or_eq_false_iff]
  exact fun clear => set clear.1

theorem ControlTrace.cacheEnable (trace : ControlTrace platform start m)
    (cacheBit : Word) :
    ControlTrace platform start (cacheEnable platform cacheBit m) := by
  unfold AuxLoader.cacheEnable
  split
  · have filled : ControlTrace platform start { m with
        mem := fillPageTable platform.pageTable m.biDram0Start m.biDram0Size
          m.mem } := ⟨trace.cr, trace.flushes⟩
    have table := filled.quiet (.setTtbr platform.pageTable) (by simp)
    have access := table.quiet (.setDacr 0xffffffff) (by simp)
    exact (access.setBit crM).setBit cacheBit
  · exact trace.setBit cacheBit

theorem ControlTrace.icacheDisable (trace : ControlTrace platform start m) :
    ControlTrace platform start (icacheDisable platform m) := by
  have other : crI ≠ crC := by decide
  rw [AuxLoader.icacheDisable, cacheDisable, if_neg other]
  apply trace.setCr
  intro set
  rw [ne_eq, and_crC_eq_zero_iff] at set ⊢
  rw [BitVec.getLsbD_and, Bool.and_eq_false_iff]
  rintro (clear | clear)
  · exact set clear
  · exact absurd clear (by decide)

theorem ControlTrace.dcacheDisable (trace : ControlTrace platform start m) :
    ControlTrace platform start (dcacheDisable platform m) := by
  rw [AuxLoader.dcacheDisable, cacheDisable, if_pos rfl]
  split
  next => exact trace
  next enabled =>
    rw [and_crC_ne_iff] at enabled
    have flushed := trace.maintain .cleanInvalAll
    refine ⟨?_, ?_⟩
    · rw [Machine.setCr, Machine.emit, crAfter_append]
      rfl
    · apply flushed.flushes.snoc
      intro value _ _ _
      refine ⟨m.log, congrArg Machine.log (flushDcacheAll_eq m), ?_⟩
      rwa [← trace.cr]

theorem ControlTrace.cleanupBeforeLinux
    (trace : ControlTrace platform start m) :
    ControlTrace platform start (cleanupBeforeLinux platform m) := by
  have masked := (trace.quiet .disableInterrupts (by simp)).icacheDisable
  have disabled := (masked.quiet .invalidateIcacheAll (by simp)).dcacheDisable
  have clean := disabled.maintain .invalAll
  unfold AuxLoader.cleanupBeforeLinux clearL2cacheErr
  split
  · exact clean
  · exact clean.quiet _ (by simp)

/-- What `cleanup_before_linux` makes of the register. -/
def cleanupCr (reg : Word) : Word :=
  if reg &&& crC = 0 then reg &&& ~~~crI
  else reg &&& ~~~crI &&& ~~~(crC ||| crM)

theorem masked_crC (reg : Word) : reg &&& ~~~crI &&& crC = reg &&& crC :=
  mask_kept reg (by decide)

theorem v7MaintDcacheAll_cr (operation : DcacheOp) (m : Machine) :
    (v7MaintDcacheAll platform operation m).cr = m.cr :=
  (congrArg Machine.cr (v7MaintDcacheAll_eq operation m)).trans rfl

theorem clearL2cacheErr_cr (m : Machine) :
    (clearL2cacheErr platform m).cr = m.cr := by
  unfold clearL2cacheErr
  split <;> rfl

theorem cleanupBeforeLinux_cr (m : Machine) :
    (cleanupBeforeLinux platform m).cr = cleanupCr m.cr := by
  have other : crI ≠ crC := by decide
  rw [AuxLoader.cleanupBeforeLinux]
  simp only [clearL2cacheErr_cr, invalidateDcacheAll, v7MaintDcacheAll_cr,
    AuxLoader.dcacheDisable, AuxLoader.icacheDisable, cacheDisable,
    if_neg other, if_pos, Machine.cr_emit, Machine.cr_setCr, and_crC_ne_iff,
    masked_crC, cleanupCr]
  split
  · rfl
  · rfl

/-- The M, C and I bits are clear. -/
structure CachesOff (reg : Word) : Prop where
  mmu : reg &&& crM = 0
  dcache : reg &&& crC = 0
  icache : reg &&& crI = 0

theorem cleanupCr_crI (reg : Word) : cleanupCr reg &&& crI = 0 := by
  unfold cleanupCr
  split
  · exact mask_cleared reg (by decide)
  · rw [mask_kept _ (by decide)]
    exact mask_cleared reg (by decide)

theorem cleanupCr_crC (reg : Word) : cleanupCr reg &&& crC = 0 := by
  unfold cleanupCr
  split
  next clear => rw [masked_crC, clear]
  next => exact mask_cleared _ (by decide)

theorem cleanupCr_crM (reg : Word) :
    cleanupCr reg &&& crM = if reg &&& crC = 0 then reg &&& crM else 0 := by
  unfold cleanupCr
  split
  · exact mask_kept reg (by decide)
  · exact mask_cleared _ (by decide)

theorem cachesOff_cleanupCr_iff (reg : Word) :
    CachesOff (cleanupCr reg) ↔ reg &&& crM = 0 ∨ reg &&& crC ≠ 0 := by
  have mmu := cleanupCr_crM reg
  constructor
  · intro off
    rw [off.mmu] at mmu
    split at mmu
    next => exact .inl mmu.symm
    next set => exact .inr set
  · intro clears
    refine ⟨mmu.trans ?_, cleanupCr_crC reg, cleanupCr_crI reg⟩
    split
    next clear => exact clears.resolve_right (not_not_intro clear)
    next => rfl

theorem cacheEnable_crC (m : Machine) :
    (cacheEnable platform crC m).cr &&& crC ≠ 0 := by
  rw [cacheEnable, Machine.cr_setCr, ne_eq, and_crC_eq_zero_iff,
    BitVec.getLsbD_or, Bool.or_eq_false_iff]
  exact fun clear => absurd clear.2 (by decide)

end Steps

/-! The handlers, and what reaches the kernel. -/

section Handlers

variable {platform : Platform} {decode : LzmaDecoder} {start : Word}
  {m next : Machine}

/-- The loader unpacks the kernel, with the caches turned on. -/
def ExtractsKernel (platform : Platform) (m : Machine) : Prop :=
  platform.magic m = fitIhMagic ∧
    ∃ image, platform.Accepts m image ∧ image.kernelLoad < image.kernel.ptr

/-- The register after a handler has returned 0, for each of the paths. -/
inductive HandlerControl (platform : Platform) (m : Machine) : Word → Prop
  | legacy (skips : ¬ ExtractsKernel platform m) : HandlerControl platform m m.cr
  | skips (skips : ¬ ExtractsKernel platform m) :
      HandlerControl platform m (cleanupCr m.cr)
  | extracts (extracts : ExtractsKernel platform m) {reg : Word}
      (off : CachesOff reg) : HandlerControl platform m reg

theorem ControlTrace.same (trace : ControlTrace platform start m)
    (cr : next.cr = m.cr) (log : next.log = m.log) :
    ControlTrace platform start next :=
  ⟨by rw [cr, log, trace.cr], by rw [log]; exact trace.flushes⟩

theorem ControlTrace.extractKernel (trace : ControlTrace platform start m)
    (decode : LzmaDecoder) (image : FitImage) :
    ControlTrace platform start (extractKernel platform decode image m) := by
  have ranged : ControlTrace platform start (biDram0SetRanges image.kernelLoad
      (image.kernel.ptr - image.kernelLoad + 0x2000000) m) :=
    trace.same rfl rfl
  have cached := (ranged.cacheEnable crI).cacheEnable crC
  unfold AuxLoader.extractKernel
  apply ControlTrace.quiet
  · exact cached.same rfl rfl
  · simp

theorem ControlTrace.watchdogSetup (trace : ControlTrace platform start m)
    (period : Word) :
    ControlTrace platform start
      (watchdogSetup platform.cpuType period m) := by
  apply trace.events
  rintro event member value rfl
  cases cpu : platform.cpuType <;>
    simp [cpu, watchdogWrites, CpuType.watchdog] at member

theorem extractKernel_crC (image : FitImage) (m : Machine) :
    (AuxLoader.extractKernel platform decode image m).cr &&& crC ≠ 0 :=
  cacheEnable_crC _

theorem bootFitImage_control {image : FitImage}
    (trace : ControlTrace platform start m)
    (returned : bootFitImage platform decode image m = some next) :
    ControlTrace platform start next ∧
      if image.kernelLoad < image.kernel.ptr then CachesOff next.cr
      else next.cr = cleanupCr m.cr := by
  obtain ⟨mem, _, rfl⟩ := Option.map_eq_some_iff.mp returned
  have watched := trace.watchdogSetup 30
  split
  next below =>
    have clean := (watched.extractKernel decode image).cleanupBeforeLinux
    refine ⟨clean.same rfl rfl, ?_⟩
    change CachesOff (cleanupBeforeLinux platform _).cr
    rw [cleanupBeforeLinux_cr, cachesOff_cleanupCr_iff]
    exact .inr (extractKernel_crC image _)
  next =>
    exact ⟨watched.cleanupBeforeLinux.same rfl rfl, cleanupBeforeLinux_cr _⟩

theorem handleImage_control (trace : ControlTrace platform start m)
    (returned : handleImage platform decode m = some (0, next)) :
    ControlTrace platform start next ∧
      HandlerControl platform m next.cr := by
  have known : KnownMagic platform m := by
    by_contra unknown
    rw [handleImage_unknown unknown] at returned
    cases returned
  have returns := (handlerReturns_iff known).mpr returned
  cases returns with
  | legacy magic returned =>
      have skips : ¬ ExtractsKernel platform m := by
        rintro ⟨fit, _⟩
        exact absurd (magic.symm.trans fit) (by decide)
      rcases handleLegacy_cases returned with ⟨zero, _⟩ | ⟨_, now, rfl⟩
      · exact absurd zero (by decide)
      · exact ⟨trace.same rfl rfl, .legacy skips⟩
  | fit magic returned =>
      obtain ⟨image, accepts, boots⟩ := Fit.handleFit_boots returned
      obtain ⟨after, control⟩ := bootFitImage_control trace boots
      refine ⟨after, ?_⟩
      split at control
      next below => exact .extracts ⟨magic, image, accepts, below⟩ control
      next above =>
        rw [control]
        refine .skips ?_
        rintro ⟨_, other, accepted, below⟩
        cases accepts.unique accepted
        exact above below

theorem HandlerControl.off_iff {reg : Word}
    (control : HandlerControl platform m reg) :
    CachesOff (cleanupCr reg) ↔
      m.cr &&& crM = 0 ∨ m.cr &&& crC ≠ 0 ∨ ExtractsKernel platform m := by
  rw [cachesOff_cleanupCr_iff, ← or_assoc]
  cases control with
  | legacy skips => exact (or_iff_left skips).symm
  | skips skips =>
      have off := cachesOff_cleanupCr_iff m.cr
      rw [or_iff_left skips, ← off]
      refine ⟨fun bits => ?_, fun off => .inl off.mmu⟩
      have mmu := bits.resolve_right (not_not_intro (cleanupCr_crC m.cr))
      exact ⟨mmu, cleanupCr_crC m.cr, cleanupCr_crI m.cr⟩
  | extracts extracts off => exact iff_of_true (.inl off.mmu) (.inr extracts)

end Handlers

section Call

variable {platform : Platform} {decode : LzmaDecoder} {arch cr : Word}
  {mem : Memory} {entry zero arg params : Word} {last : Machine}

/-- The machine as the kernel is entered, with the D-cache flushed whenever it
was turned off on the way. -/
structure EnteredOff (platform : Platform) (start : Word) (last : Machine) :
    Prop where
  off : CachesOff last.cr
  history : ControlTrace platform start last

theorem kernelCall_control
    (called : run platform decode arch mem cr =
      some (.kernelCall entry zero arg params last)) :
    ControlTrace platform cr last ∧
      (CachesOff last.cr ↔ cr &&& crM = 0 ∨ cr &&& crC ≠ 0 ∨
        ExtractsKernel platform (entered arch mem cr)) := by
  obtain ⟨_, next, returned, rfl, _⟩ := kernelCall_last called
  have fresh : ControlTrace platform cr (entered arch mem cr) := by
    refine ⟨rfl, fun before value after split => ?_⟩
    exact absurd split (by simp [entered, Machine.boot])
  obtain ⟨trace, control⟩ := handleImage_control fresh returned
  refine ⟨trace.cleanupBeforeLinux, ?_⟩
  rw [cleanupBeforeLinux_cr]
  exact control.off_iff

/-- The MMU stays on exactly when the boot stage before left it on with the
D-cache off, and nothing turns the D-cache on in between. -/
theorem kernelCall_enteredOff_iff
    (called : run platform decode arch mem cr =
      some (.kernelCall entry zero arg params last)) :
    EnteredOff platform cr last ↔
      cr &&& crM = 0 ∨ cr &&& crC ≠ 0 ∨
        ExtractsKernel platform (entered arch mem cr) := by
  obtain ⟨trace, off⟩ := kernelCall_control called
  exact ⟨fun entered => off.mp entered.off,
    fun clears => ⟨off.mpr clears, trace⟩⟩

end Call

/-! A legacy image, which is booted with the control register as it was. -/

section Legacy

def legacyPlatform : Platform := cortexA7 legacyLayout

def legacyMem : Memory := (legacyMachine 0x80208000).mem

theorem legacyMem_magic (cr : Word) :
    legacyPlatform.magic (entered ipqArch legacyMem cr) = legacyIhMagic := by
  change Memory.beWord legacyMem 0x84805000 = legacyIhMagic
  decide +kernel

theorem legacyMem_called (decode : LzmaDecoder) (cr : Word) :
    ∃ entry zero arg params last,
      run legacyPlatform decode ipqArch legacyMem cr =
        some (.kernelCall entry zero arg params last) := by
  have fits : legacyLayout.LegacyFits (entered ipqArch legacyMem cr) := by
    change 64 + (Memory.beWord legacyMem
      (0x84805000 + LegacyImageHeader.ihSize)).toNat ≤ _
    decide +kernel
  obtain ⟨now, returned, _⟩ := handleLegacy_copies fits
  have image := @handleImage_legacy legacyPlatform decode _ (legacyMem_magic cr)
  obtain ⟨last, _, called⟩ := run_of_returned (image.trans returned)
  exact ⟨_, _, _, _, last, called⟩

theorem kernelCall_enteredOff_iff_allOn :
    ∃ entry zero arg params last,
      run legacyPlatform Fit.rejectAll ipqArch legacyMem 0x1005 =
          some (.kernelCall entry zero arg params last) ∧
        EnteredOff legacyPlatform 0x1005 last := by
  obtain ⟨entry, zero, arg, params, last, called⟩ :=
    legacyMem_called Fit.rejectAll 0x1005
  exact ⟨entry, zero, arg, params, last, called,
    (kernelCall_enteredOff_iff called).mpr (.inr (.inl (by decide)))⟩

/-- With the MMU on and the D-cache off, the kernel is entered with the MMU
on. -/
theorem kernelCall_mmuOn :
    ¬ ∀ entry zero arg params last,
      run legacyPlatform Fit.rejectAll ipqArch legacyMem 1 =
          some (.kernelCall entry zero arg params last) →
        EnteredOff legacyPlatform 1 last := by
  intro always
  obtain ⟨entry, zero, arg, params, last, called⟩ :=
    legacyMem_called Fit.rejectAll 1
  obtain ⟨_, off⟩ := kernelCall_control called
  rcases off.mp (always _ _ _ _ _ called).off with mmu | dcache | ⟨fit, _⟩
  · exact absurd mmu (by decide)
  · exact absurd dcache (by decide)
  · exact absurd ((legacyMem_magic 1).symm.trans fit) (by decide)

end Legacy

end AuxLoader
