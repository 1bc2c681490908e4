import AuxLoader.Machine

namespace AuxLoader

open Data

/-! The cache and MMU control of `cpu.c`. -/

def crM : Word := 1 <<< 0
def crC : Word := 1 <<< 2
def crI : Word := 1 <<< 12

/-- `CACHE_SETUP`; the build does not ask for write-through. -/
def cacheSetup : Word := 0x1e

/-- The shift loop of `log_2_n_round_up`; 33 rounds empty any word. -/
def log2Loop : Nat → Word → Int → Int
  | 0, _, log2n => log2n
  | rounds + 1, temp, log2n =>
      if temp ≠ 0 then log2Loop rounds (temp >>> 1) (log2n + 1) else log2n

def log2NRoundUp (n : Word) : Int :=
  let log2n := log2Loop 33 n (-1)
  if n &&& (n - 1) ≠ 0 then log2n + 1 else log2n

def setwayWord (level : Word) (set way : Nat) (wayShift log2LineLen : Word) :
    Word :=
  level <<< 1 ||| BitVec.ofNat 32 set <<< log2LineLen.toNat |||
    BitVec.ofNat 32 way <<< wayShift.toNat

/-- All ways and, for each, all sets, counted down. -/
def dcacheLevelSetway (operation : DcacheOp)
    (level numSets numWays wayShift log2LineLen : Word) (m : Machine) :
    Machine :=
  (List.range numWays.toNat).reverse.foldl (fun m way =>
    (List.range numSets.toNat).reverse.foldl (fun m set =>
      m.emit (.dcacheSetway operation
        (setwayWord level set way wayShift log2LineLen))) m) m

def v7InvalDcacheLevelSetway :
    Word → Word → Word → Word → Word → Machine → Machine :=
  dcacheLevelSetway .invalAll

def v7CleanInvalDcacheLevelSetway :
    Word → Word → Word → Word → Word → Machine → Machine :=
  dcacheLevelSetway .cleanInvalAll

def armv7CsselrIndDataUnified : Word := 0

def v7MaintDcacheLevelSetway (platform : Platform) (level : Word)
    (operation : DcacheOp) (m : Machine) : Machine :=
  let ccsidr := platform.ccsidr (level <<< 1 ||| armv7CsselrIndDataUnified)
  let log2LineLen := (ccsidr &&& 0x7) + 2 + 2
  let numWays := (ccsidr &&& (0x3FF <<< 3)) >>> 3 + 1
  let numSets := (ccsidr &&& (0x7FFF <<< 13)) >>> 13 + 1
  let wayShift := 32 - BitVec.ofInt 32 (log2NRoundUp numWays)
  match operation with
  | .invalAll =>
      v7InvalDcacheLevelSetway level numSets numWays wayShift log2LineLen m
  | .cleanInvalAll =>
      v7CleanInvalDcacheLevelSetway level numSets numWays wayShift log2LineLen m

def hasDcache (cacheType : Word) : Bool :=
  cacheType = 2 || cacheType = 3 || cacheType = 4

def v7MaintDcacheAll (platform : Platform) (operation : DcacheOp)
    (m : Machine) : Machine :=
  (List.range 7).foldl (fun m level =>
    if hasDcache ((platform.clidr >>> (3 * level)) &&& 0x7) then
      v7MaintDcacheLevelSetway platform (BitVec.ofNat 32 level) operation m
    else m) m

def invalidateDcacheAll (platform : Platform) : Machine → Machine :=
  v7MaintDcacheAll platform .invalAll

def flushDcacheAll (platform : Platform) : Machine → Machine :=
  v7MaintDcacheAll platform .cleanInvalAll

/-- `clear_l2cache_err` writes the error register back, on the IPQ806X only. -/
def clearL2cacheErr (platform : Platform) (m : Machine) : Machine :=
  match platform.cpuType with
  | .ipq4xxx => m
  | .ipq806x => m.emit (.setL2IndirectReg 0x204 platform.l2esr)

def biDram0SetRanges (start size : Word) (m : Machine) : Machine :=
  { m with biDram0Start := start, biDram0Size := size }

/-! The page table. -/

def Layout.pageTable (layout : Layout) : Word := layout.textBase + 0x2800000

def pageTableEntry (i : Nat) (attributes : Word) : Word :=
  BitVec.ofNat 32 i <<< 20 ||| 3 <<< 10 ||| attributes

def setPageTable (pageTable : Word) (mem : Memory) (i : Nat)
    (attributes : Word) : Memory :=
  mem.setWord (pageTable + BitVec.ofNat 32 (4 * i))
    (pageTableEntry i attributes)

def dramBankMmuSetup (pageTable start size : Word) (mem : Memory) : Memory :=
  let skip := (pageTable >>> 20).toNat
  let first := (start >>> 20).toNat
  let last := ((start + size) >>> 20).toNat
  (List.range' first (last - first)).foldl (fun mem i =>
    if i = skip then mem else setPageTable pageTable mem i cacheSetup) mem

def identityMap (pageTable : Word) (mem : Memory) : Memory :=
  (List.range 4096).foldl
    (fun mem i => setPageTable pageTable mem i 0x12) mem

/-- The table-filling part of `mmu_setup`. -/
def fillPageTable (pageTable start size : Word) (mem : Memory) : Memory :=
  dramBankMmuSetup pageTable start size (identityMap pageTable mem)

def mmuSetup (platform : Platform) (m : Machine) : Machine :=
  let pageTable := platform.pageTable
  let mem := fillPageTable pageTable m.biDram0Start m.biDram0Size m.mem
  let m := { m with mem := mem }.emit (.setTtbr pageTable)
  let m := m.emit (.setDacr 0xffffffff)
  m.setCr (m.cr ||| crM)

/-! Turning the caches on and off. -/

def mmuEnabled (m : Machine) : Bool := m.cr &&& crM ≠ 0

def cacheEnable (platform : Platform) (cacheBit : Word) (m : Machine) :
    Machine :=
  let m := if cacheBit = crC ∧ ¬ mmuEnabled m then mmuSetup platform m else m
  m.setCr (m.cr ||| cacheBit)

def enableCaches (platform : Platform) (m : Machine) : Machine :=
  cacheEnable platform crC (cacheEnable platform crI m)

def cacheDisable (platform : Platform) (cacheBit : Word) (m : Machine) :
    Machine :=
  let reg := m.cr
  if cacheBit = crC then
    if reg &&& crC ≠ crC then
      m
    else
      (flushDcacheAll platform m).setCr (reg &&& ~~~(cacheBit ||| crM))
  else
    m.setCr (reg &&& ~~~cacheBit)

def icacheDisable (platform : Platform) : Machine → Machine :=
  cacheDisable platform crI

def dcacheDisable (platform : Platform) : Machine → Machine :=
  cacheDisable platform crC

def cleanupBeforeLinux (platform : Platform) (m : Machine) : Machine :=
  let m := m.emit .disableInterrupts
  let m := (icacheDisable platform m).emit .invalidateIcacheAll
  let m := dcacheDisable platform m
  clearL2cacheErr platform (invalidateDcacheAll platform m)

/-! What these steps leave alone. -/

section Frames

variable (platform : Platform)

/-- Maintenance of the data caches comes to a list of set/way operations. -/
theorem v7MaintDcacheAll_induct {P : Machine → Prop} {operation : DcacheOp}
    (setway : ∀ m operand, P m → P (m.emit (.dcacheSetway operation operand)))
    (m : Machine) (start : P m) :
    P (v7MaintDcacheAll platform operation m) := by
  have level (level numSets numWays wayShift log2LineLen : Word)
      (m : Machine) (start : P m) :
      P (dcacheLevelSetway operation level numSets numWays wayShift
        log2LineLen m) := by
    apply List.foldlRecOn _ _ start
    intro m prior way _
    apply List.foldlRecOn _ _ prior
    intro m prior set _
    exact setway m _ prior
  apply List.foldlRecOn _ _ start
  intro m prior number _
  split
  · cases operation with
    | invalAll => exact level _ _ _ _ _ m prior
    | cleanInvalAll => exact level _ _ _ _ _ m prior
  · exact prior

theorem v7MaintDcacheAll_coreStep (operation : DcacheOp) (m : Machine) :
    m.CoreStep (v7MaintDcacheAll platform operation m) := by
  apply v7MaintDcacheAll_induct platform _ m (.refl m)
  intro next operand prior
  exact prior.trans (.emit next _ (by simp))

theorem v7MaintDcacheAll_mem (operation : DcacheOp) (m : Machine) :
    (v7MaintDcacheAll platform operation m).mem = m.mem := by
  apply v7MaintDcacheAll_induct platform (P := fun next => next.mem = m.mem)
    _ m rfl
  intro next operand prior
  exact prior

theorem clearL2cacheErr_coreStep (m : Machine) :
    m.CoreStep (clearL2cacheErr platform m) := by
  unfold clearL2cacheErr
  split
  · exact .refl m
  · exact .emit m _ (by simp)

theorem clearL2cacheErr_mem (m : Machine) :
    (clearL2cacheErr platform m).mem = m.mem := by
  unfold clearL2cacheErr
  split <;> rfl

theorem mmuSetup_coreStep (m : Machine) :
    m.CoreStep (mmuSetup platform m) :=
  ⟨rfl, rfl, rfl, rfl, rfl, [.setTtbr platform.pageTable,
    .setDacr 0xffffffff, .setCr (m.cr ||| crM)],
    by simp [mmuSetup, Machine.emit, Machine.setCr], by simp⟩

theorem cacheEnable_coreStep (cacheBit : Word) (m : Machine) :
    m.CoreStep (cacheEnable platform cacheBit m) := by
  unfold cacheEnable
  split
  · exact (mmuSetup_coreStep platform m).trans (.setCr _ _)
  · exact .setCr m _

theorem enableCaches_coreStep (m : Machine) :
    m.CoreStep (enableCaches platform m) :=
  (cacheEnable_coreStep platform crI m).trans
    (cacheEnable_coreStep platform crC _)

theorem cacheDisable_coreStep (cacheBit : Word) (m : Machine) :
    m.CoreStep (cacheDisable platform cacheBit m) := by
  simp only [cacheDisable]
  split_ifs
  · exact .refl m
  · exact (v7MaintDcacheAll_coreStep platform _ m).trans (.setCr _ _)
  · exact .setCr m _

theorem cacheDisable_mem (cacheBit : Word) (m : Machine) :
    (cacheDisable platform cacheBit m).mem = m.mem := by
  simp only [cacheDisable]
  split_ifs
  · rfl
  · exact v7MaintDcacheAll_mem platform _ m
  · rfl

theorem cleanupBeforeLinux_coreStep (m : Machine) :
    m.CoreStep (cleanupBeforeLinux platform m) := by
  have interrupts := Machine.CoreStep.emit m .disableInterrupts (by simp)
  have icache := interrupts.trans (cacheDisable_coreStep platform crI _)
  have flushed := icache.trans
    (Machine.CoreStep.emit _ .invalidateIcacheAll (by simp))
  have dcache := flushed.trans (cacheDisable_coreStep platform crC _)
  exact (dcache.trans (v7MaintDcacheAll_coreStep platform .invalAll _)).trans
    (clearL2cacheErr_coreStep platform _)

@[simp] theorem cleanupBeforeLinux_mem (m : Machine) :
    (cleanupBeforeLinux platform m).mem = m.mem := by
  unfold cleanupBeforeLinux icacheDisable dcacheDisable invalidateDcacheAll
  simp only [clearL2cacheErr_mem, v7MaintDcacheAll_mem, cacheDisable_mem,
    Machine.mem_emit]

end Frames

/-! Enabling the caches writes the page table, and nothing else. -/

section PageTable

theorem setPageTable_outside (pageTable : Word) (mem : Memory) {i : Nat}
    (attributes : Word) (entry : i < 4096) {a : Word}
    (outside : ¬ Word.Within pageTable 16384 a) :
    setPageTable pageTable mem i attributes a = mem a := by
  apply Memory.setWord_outside
  rw [Word.within_add_iff (by omega)]
  unfold Word.Within at outside
  omega

theorem fillPageTable_outside (pageTable start size : Word) (mem : Memory)
    {a : Word} (outside : ¬ Word.Within pageTable 16384 a) :
    fillPageTable pageTable start size mem a = mem a := by
  have identity : identityMap pageTable mem a = mem a := by
    apply List.foldlRecOn (motive := fun now : Memory => now a = mem a) _ _ rfl
    intro now prior i member
    have entry := List.mem_range.mp member
    exact (setPageTable_outside pageTable now _ entry outside).trans prior
  apply List.foldlRecOn (motive := fun now : Memory => now a = mem a) _ _
    identity
  intro now prior i member
  have entry : i < 4096 := by
    have last := List.mem_range'.mp member
    have top := ((start + size) >>> 20).isLt
    simp only [BitVec.toNat_ushiftRight, Nat.shiftRight_eq_div_pow] at last
    omega
  split
  · exact prior
  · exact (setPageTable_outside pageTable now _ entry outside).trans prior

end PageTable

theorem enableCaches_mem (platform : Platform) (m : Machine) :
    (enableCaches platform m).mem =
      if mmuEnabled m then m.mem
      else fillPageTable platform.pageTable m.biDram0Start m.biDram0Size
        m.mem := by
  have icache : cacheEnable platform crI m = m.setCr (m.cr ||| crI) := by
    simp [cacheEnable, crI, crC]
  have stays : mmuEnabled (m.setCr (m.cr ||| crI)) = mmuEnabled m := by
    have bit : (m.cr ||| crI) &&& crM = m.cr &&& crM := by
      rw [BitVec.and_comm, BitVec.and_or_distrib_left,
        show crM &&& crI = 0#32 by decide, BitVec.or_zero, BitVec.and_comm]
    simp only [mmuEnabled, Machine.cr_setCr, bit]
  rw [enableCaches, icache, cacheEnable, stays]
  cases mmuEnabled m with
  | true => simp
  | false =>
      simp only [mmuSetup]
      rfl

end AuxLoader
