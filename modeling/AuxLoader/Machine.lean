import AuxLoader.Board

namespace AuxLoader

open Data

/-! What the loader runs on: its memory image, the core and the registers. -/

inductive CpuType
  | ipq4xxx
  | ipq806x
  deriving DecidableEq

/-- The addresses the linker scripts fix. The image is linked in between the
text base and the workspace, which starts beyond the aligned end of `.bss`. -/
structure Layout where
  textBase : Word
  kernelDataStart : Word
  kernelDataEnd : Word
  workspace : Word
  textBase_le_start : textBase ≤ kernelDataStart
  start_le_end : kernelDataStart ≤ kernelDataEnd
  end_le_workspace : kernelDataEnd ≤ workspace
  workspace_aligned : 32 ∣ workspace.toNat

/-- A build for a core that reports these identification registers; `ccsidr`
is given by the level and type written to CSSELR. -/
structure Platform extends Layout where
  cpuType : CpuType
  clidr : Word
  ccsidr : Word → Word
  l2esr : Word

/-- The comment at `boot_params` leaves 16 MiB to the stack. -/
def stackSize : Nat := 0x1000000

namespace Layout

variable (layout : Layout)

/-- The stack comes down from the text base. -/
def stackEnd : Nat := layout.textBase.toNat - stackSize

/-- Where the loader itself lives: its stack, its code and its variables, with
the image among them, up to the workspace. -/
def Own (a : Word) : Prop := layout.stackEnd ≤ a.toNat ∧ a < layout.workspace

def kernImageLen : Word := layout.kernelDataEnd - layout.kernelDataStart

theorem toNat_kernImageLen :
    layout.kernelDataStart.toNat + layout.kernImageLen.toNat =
      layout.kernelDataEnd.toNat := by
  have order := layout.start_le_end
  unfold kernImageLen
  bv_omega

theorem image_end_le_workspace :
    layout.kernelDataStart.toNat + layout.kernImageLen.toNat ≤
      layout.workspace.toNat := by
  rw [layout.toNat_kernImageLen]
  exact BitVec.le_def.mp layout.end_le_workspace

theorem stackEnd_le_textBase : layout.stackEnd ≤ layout.textBase.toNat :=
  Nat.sub_le _ _

theorem textBase_le_workspace :
    layout.textBase.toNat ≤ layout.workspace.toNat := by
  have start := BitVec.le_def.mp layout.textBase_le_start
  have stop := BitVec.le_def.mp layout.start_le_end
  have room := BitVec.le_def.mp layout.end_le_workspace
  omega

theorem stackEnd_le_workspace : layout.stackEnd ≤ layout.workspace.toNat :=
  Nat.le_trans layout.stackEnd_le_textBase layout.textBase_le_workspace

/-- The alignment keeps the workspace off the top of the address space. -/
theorem workspace_add_lt : layout.workspace.toNat + 31 < 2 ^ 32 := by
  have aligned := layout.workspace_aligned
  have := layout.workspace.isLt
  omega

end Layout

/-- A small image linked in at 0x84805000, for runs on examples. -/
def linkedLayout (kernImageLen : Word) (small : kernImageLen ≤ 0x1000) :
    Layout where
  textBase := 0x84800000
  kernelDataStart := 0x84805000
  kernelDataEnd := 0x84805000 + kernImageLen
  workspace := 0x84806000
  textBase_le_start := by decide
  start_le_end := by bv_omega
  end_le_workspace := by bv_omega
  workspace_aligned := by decide

inductive DcacheOp
  | invalAll
  | cleanInvalAll
  deriving DecidableEq

/-- What the loader does besides computing: device and system register writes,
cache maintenance, and its LZMA stage with the value it returned. -/
inductive Event
  | writel (value address : Word)
  | setCr (value : Word)
  | setTtbr (value : Word)
  | setDacr (value : Word)
  | dcacheSetway (operation : DcacheOp) (setway : Word)
  | invalidateIcacheAll
  | disableInterrupts
  | setL2IndirectReg (address value : Word)
  | lzmaGogogo (kernelLa lzmaData lzmaDatasize : Word) (res : Int)
  deriving DecidableEq

/-- Memory, the CP15 control register, the globals of the C files and the
events so far. The globals are kept here, and what goes on the stack nowhere:
of the place that is the loader's own, `mem` tells the image only, and a result
that is to hold of the board keeps the rest of that place apart. -/
structure Machine where
  mem : Memory
  cr : Word
  biDram0Start : Word
  biDram0Size : Word
  arch : Word
  kernelEntry : Word
  kernelP0 : Word
  kernelP1 : Word
  kernelP2 : Word
  log : List Event

def ipqArch : Word := 4200

namespace Machine

/-- The state `loader_main` finds: `.data` as linked, `.bss` cleared. -/
def boot (mem : Memory) (cr : Word) : Machine where
  mem := mem
  cr := cr
  biDram0Start := 0
  biDram0Size := 0
  arch := 0
  kernelEntry := 0
  kernelP0 := 0
  kernelP1 := ipqArch
  kernelP2 := 0
  log := []

def emit (m : Machine) (event : Event) : Machine :=
  { m with log := m.log ++ [event] }

def setCr (m : Machine) (value : Word) : Machine :=
  { m with cr := value }.emit (.setCr value)

/-- The core does something that leaves the boot parameters as they are. -/
structure CoreStep (m next : Machine) : Prop where
  arch : next.arch = m.arch
  kernelEntry : next.kernelEntry = m.kernelEntry
  kernelP0 : next.kernelP0 = m.kernelP0
  kernelP1 : next.kernelP1 = m.kernelP1
  kernelP2 : next.kernelP2 = m.kernelP2
  log : ∃ events, next.log = m.log ++ events ∧
    ∀ la data size res, .lzmaGogogo la data size res ∉ events

namespace CoreStep

theorem refl (m : Machine) : CoreStep m m :=
  ⟨rfl, rfl, rfl, rfl, rfl, [], by simp, by simp⟩

theorem trans {m next later : Machine} (first : CoreStep m next)
    (second : CoreStep next later) : CoreStep m later := by
  obtain ⟨events, log, quiet⟩ := first.log
  obtain ⟨others, laterLog, laterQuiet⟩ := second.log
  exact {
    arch := second.arch.trans first.arch
    kernelEntry := second.kernelEntry.trans first.kernelEntry
    kernelP0 := second.kernelP0.trans first.kernelP0
    kernelP1 := second.kernelP1.trans first.kernelP1
    kernelP2 := second.kernelP2.trans first.kernelP2
    log := ⟨events ++ others, by rw [laterLog, log, List.append_assoc], by
      intro la data size res member
      rcases List.mem_append.mp member with early | late
      · exact quiet la data size res early
      · exact laterQuiet la data size res late⟩ }

theorem emit (m : Machine) (event : Event)
    (quiet : ∀ la data size res, event ≠ .lzmaGogogo la data size res) :
    CoreStep m (m.emit event) :=
  ⟨rfl, rfl, rfl, rfl, rfl, [event], rfl, fun la data size res member =>
    quiet la data size res (List.mem_singleton.mp member).symm⟩

theorem setCr (m : Machine) (value : Word) : CoreStep m (m.setCr value) :=
  ⟨rfl, rfl, rfl, rfl, rfl, [.setCr value], rfl, by simp⟩

end CoreStep

@[simp] theorem mem_emit (m : Machine) (event : Event) :
    (m.emit event).mem = m.mem := rfl

@[simp] theorem cr_emit (m : Machine) (event : Event) :
    (m.emit event).cr = m.cr := rfl

@[simp] theorem mem_setCr (m : Machine) (value : Word) :
    (m.setCr value).mem = m.mem := rfl

@[simp] theorem cr_setCr (m : Machine) (value : Word) :
    (m.setCr value).cr = value := rfl

end Machine

/-! The watchdog of `watchdog.c`. -/

/-- The registers of a watchdog, its tick rate, and the extra enable register
that the IPQ806X has. -/
structure WatchdogRegs where
  en : Word
  rst : Word
  barkTime : Word
  biteTime : Word
  ticksPerSecond : Word
  expiredEnable : Option Word

def CpuType.watchdog : CpuType → WatchdogRegs
  | .ipq4xxx =>
      { en := 0xB017008, rst := 0xB017004, barkTime := 0xB017010,
        biteTime := 0xB017014, ticksPerSecond := 65536,
        expiredEnable := none }
  | .ipq806x =>
      { en := 0x200A040, rst := 0x200A038, barkTime := 0x200A04C,
        biteTime := 0x200A05C, ticksPerSecond := 32768,
        expiredEnable := some 0x903820 }

def watchdogWrites (cpuType : CpuType) (period : Word) : List Event :=
  let regs := cpuType.watchdog
  [.writel 0 regs.en, .writel 1 regs.rst,
    .writel (period * regs.ticksPerSecond) regs.barkTime,
    .writel (period * regs.ticksPerSecond) regs.biteTime,
    .writel 1 regs.en] ++
    regs.expiredEnable.toList.map (.writel 1)

def watchdogSetup (cpuType : CpuType) (period : Word) (m : Machine) :
    Machine :=
  { m with log := m.log ++ watchdogWrites cpuType period }

theorem watchdogSetup_coreStep (cpuType : CpuType) (period : Word)
    (m : Machine) : m.CoreStep (watchdogSetup cpuType period m) := by
  refine ⟨rfl, rfl, rfl, rfl, rfl, watchdogWrites cpuType period, rfl, ?_⟩
  intro la data size res
  cases cpuType <;> simp [watchdogWrites, CpuType.watchdog]

@[simp] theorem watchdogSetup_mem (cpuType : CpuType) (period : Word)
    (m : Machine) : (watchdogSetup cpuType period m).mem = m.mem := rfl

@[simp] theorem watchdogSetup_cr (cpuType : CpuType) (period : Word)
    (m : Machine) : (watchdogSetup cpuType period m).cr = m.cr := rfl

end AuxLoader
