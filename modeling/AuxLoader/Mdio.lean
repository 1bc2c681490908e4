import AuxLoader.Data.Memory

namespace AuxLoader.Mdio

open Data

/-! The MDIO transfers of `mdio.c` and the outputs of `gpio.c`, on the
IPQ806X. -/

def miiBusy : Word := 1 <<< 0
def miiWrite : Word := 1 <<< 1
def miiClkrange250To300m : Word := 0x14
def miiaddrshift : Nat := 11
def miiregshift : Nat := 6
def miiRegmsk : Word := 0x1F <<< 6
def miiAddrmsk : Word := 0x1F <<< 11

def miiDataRegAddr : Word := 0x14
def miiAddrRegAddr : Word := 0x10

def nssGmac0Base : Word := 0x37000000
def nssGmac1Base : Word := 0x37200000

def miiBmcr : Word := 0x00
def miiPhysid1 : Word := 0x02
def bmcrPdown : Word := 0x0800

def tlmmBaseAddr : Word := 0x00800000

/-- `GPIO_IN_OUT_ADDR` -/
def gpioInOutAddr (gpio : Word) : Word := tlmmBaseAddr + 0x1004 + gpio * 0x10

/-- What the registers of the MDIO master read during one transfer: the
address register at each poll, and the data register, which has 16 bits. -/
structure Reply where
  addrReg : Nat → Word
  dataReg : BitVec 16

/-- One transfer: the value of the address register that starts it, that of
the data register, and whether the master has become idle in time. -/
structure Transfer where
  regBase : Word
  miiaddr : Word
  data : BitVec 16
  completed : Bool

namespace Transfer

def IsWrite (t : Transfer) : Prop := t.miiaddr &&& miiWrite ≠ 0

instance (t : Transfer) : Decidable t.IsWrite :=
  inferInstanceAs (Decidable (_ ≠ _))

/-- The stores that start a transfer, of the data first if it is a write. -/
def start (t : Transfer) (registers : Word → Word) : Word → Word :=
  let registers :=
    if t.IsWrite then
      Function.update registers (t.regBase + miiDataRegAddr)
        (t.data.setWidth 32)
    else registers
  Function.update registers (t.regBase + miiAddrRegAddr) t.miiaddr

end Transfer

inductive Event
  | transfer (transfer : Transfer)
  | writel (value address : Word)

/-- `mdio_reg_base`, the number of transfers so far, what the registers have
been given last and what has been done. -/
structure Bus where
  mdioRegBase : Word
  count : Nat
  registers : Word → Word
  log : List Event

namespace Bus

def emit (s : Bus) (event : Event) : Bus := { s with log := s.log ++ [event] }

def transfer (s : Bus) (transfer : Transfer) : Bus :=
  { s with
    count := s.count + 1
    registers := transfer.start s.registers }.emit (.transfer transfer)

def writel (s : Bus) (value address : Word) : Bus :=
  { s with registers := Function.update s.registers address value }.emit
    (.writel value address)

end Bus

/-- The polls `while (limiter++ < 10)`, of which `tries` are left. -/
def becomesIdle (addrReg : Nat → Word) : Nat → Nat → Bool
  | 0, _ => false
  | tries + 1, limiter =>
      if addrReg limiter &&& miiBusy = 0 then true
      else becomesIdle addrReg tries (limiter + 1)

def Reply.completes (reply : Reply) : Bool := becomesIdle reply.addrReg 10 0

/-- The PHY and register fields of the address register. -/
def miiaddrOf (phyAddr regOffset : Word) : Word :=
  (phyAddr <<< miiaddrshift &&& miiAddrmsk) |||
    (regOffset <<< miiregshift &&& miiRegmsk)

section Transfers

variable (replies : Nat → Reply)

/-- A time-out is reported as -1, in the place of the value. -/
def ipqMdioRead (phyAddr regOffset : Word) (s : Bus) : Word × Bus :=
  let reply := replies s.count
  let miiaddr := miiaddrOf phyAddr regOffset
  let miiaddr := miiaddr ||| (miiBusy ||| miiClkrange250To300m)
  let retVal := if reply.completes then reply.dataReg.setWidth 32 else -1
  (retVal, s.transfer ⟨s.mdioRegBase, miiaddr, reply.dataReg, reply.completes⟩)

def ipqMdioWrite (phyAddr regOffset : Word) (data : BitVec 16) (s : Bus) :
    Word × Bus :=
  let reply := replies s.count
  let miiaddr := miiaddrOf phyAddr regOffset ||| miiWrite
  let miiaddr := miiaddr ||| (miiBusy ||| miiClkrange250To300m)
  (if reply.completes then 0 else -1,
    s.transfer ⟨s.mdioRegBase, miiaddr, data, reply.completes⟩)

def ipqPhyRead (addr regnum : Word) (s : Bus) : Word × Bus :=
  ipqMdioRead replies addr regnum s

def ipqPhyWrite (addr regnum : Word) (value : BitVec 16) (s : Bus) :
    Word × Bus :=
  ipqMdioWrite replies addr regnum value s

end Transfers

def gpioSetValue (gpio out : Word) (s : Bus) : Bus :=
  let addr := gpioInOutAddr gpio
  let val := s.registers addr
  let val := val &&& ~~~0x2
  let val := val ||| out <<< 1
  s.writel val addr

theorem gpioSetValue_high (gpio : Word) (s : Bus) :
    ∃ value, value &&& 0x2 ≠ 0 ∧
      gpioSetValue gpio 1 s = s.writel value (gpioInOutAddr gpio) := by
  refine ⟨s.registers (gpioInOutAddr gpio) &&& ~~~(0x2 : Word) |||
    (1 : Word) <<< 1, ?_, rfl⟩
  rw [BitVec.and_or_distrib_right, BitVec.and_assoc]
  simp

/-! What a transfer addresses. -/

namespace Transfer

def phy (t : Transfer) : Word := (t.miiaddr &&& miiAddrmsk) >>> miiaddrshift

def reg (t : Transfer) : Word := (t.miiaddr &&& miiRegmsk) >>> miiregshift

def ofRead (regBase phyAddr regOffset : Word) (reply : Reply) : Transfer where
  regBase := regBase
  miiaddr := miiaddrOf phyAddr regOffset |||
    (miiBusy ||| miiClkrange250To300m)
  data := reply.dataReg
  completed := reply.completes

def ofWrite (regBase phyAddr regOffset : Word) (data : BitVec 16)
    (reply : Reply) : Transfer where
  regBase := regBase
  miiaddr := miiaddrOf phyAddr regOffset ||| miiWrite |||
    (miiBusy ||| miiClkrange250To300m)
  data := data
  completed := reply.completes

end Transfer

/-- The fields lie apart, so each reads as it has been put in. -/
theorem miiaddrOf_fields (phyAddr regOffset : Word) :
    (miiaddrOf phyAddr regOffset &&& miiAddrmsk) >>> miiaddrshift =
        phyAddr &&& 0x1F ∧
      (miiaddrOf phyAddr regOffset &&& miiRegmsk) >>> miiregshift =
        regOffset &&& 0x1F ∧
      miiaddrOf phyAddr regOffset &&& miiWrite = 0 := by
  refine ⟨?_, ?_, ?_⟩ <;>
  · ext i bound
    simp only [miiaddrOf, miiAddrmsk, miiRegmsk, miiWrite, miiaddrshift,
      miiregshift]
    interval_cases i <;> simp

namespace Transfer

variable {regBase phyAddr regOffset : Word} {data : BitVec 16} {reply : Reply}

/-- The flags are outside the fields. -/
theorem or_flags (x : Word) {flags mask : Word} (apart : flags &&& mask = 0) :
    (x ||| flags) &&& mask = x &&& mask := by
  rw [BitVec.and_or_distrib_right, apart]
  exact BitVec.or_zero

@[simp] theorem phy_ofRead :
    (ofRead regBase phyAddr regOffset reply).phy = phyAddr &&& 0x1F := by
  rw [phy, ofRead, or_flags _ (by decide)]
  exact (miiaddrOf_fields phyAddr regOffset).1

@[simp] theorem reg_ofRead :
    (ofRead regBase phyAddr regOffset reply).reg = regOffset &&& 0x1F := by
  rw [reg, ofRead, or_flags _ (by decide)]
  exact (miiaddrOf_fields phyAddr regOffset).2.1

@[simp] theorem not_isWrite_ofRead :
    ¬ (ofRead regBase phyAddr regOffset reply).IsWrite := by
  rw [IsWrite, ofRead, or_flags _ (by decide)]
  exact not_not_intro (miiaddrOf_fields phyAddr regOffset).2.2

@[simp] theorem phy_ofWrite :
    (ofWrite regBase phyAddr regOffset data reply).phy = phyAddr &&& 0x1F := by
  rw [phy, ofWrite, or_flags _ (by decide), or_flags _ (by decide)]
  exact (miiaddrOf_fields phyAddr regOffset).1

@[simp] theorem reg_ofWrite :
    (ofWrite regBase phyAddr regOffset data reply).reg = regOffset &&& 0x1F := by
  rw [reg, ofWrite, or_flags _ (by decide), or_flags _ (by decide)]
  exact (miiaddrOf_fields phyAddr regOffset).2.1

theorem isWrite_ofWrite :
    (ofWrite regBase phyAddr regOffset data reply).IsWrite := by
  rw [IsWrite, ofWrite, or_flags _ (by decide), BitVec.and_or_distrib_right,
    (miiaddrOf_fields phyAddr regOffset).2.2]
  decide

end Transfer

end AuxLoader.Mdio
