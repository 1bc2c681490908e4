import AuxLoader.Data.Memory

namespace AuxLoader.Uart

open Data

/-! The serial line of `qcom_uart.c`. -/

def lineFeed : Byte := 0x0a
def carriageReturn : Byte := 0x0d

def srTxrdy : Word := 1 <<< 2
def srTxemt : Word := 1 <<< 3
def txReady : Word := 1 <<< 7
def gcmdResTxRdyInt : Word := 3 <<< 8

/-! The registers as they are without `PERIPH_BLK_BLSP`. -/

def dmSr (base : Word) : Word := base + 0x08
def dmCr (base : Word) : Word := base + 0x10
def dmIsr (base : Word) : Word := base + 0x14
def dmNoCharsForTx (base : Word) : Word := base + 0x40
def dmTf (base x : Word) : Word := base + 0x70 + 4 * x

inductive Event
  | readl (value address : Word)
  | writel (value address : Word)
  deriving DecidableEq

/-- How often registers have been read, and what has been read and written. -/
structure Line where
  reads : Nat
  log : List Event

namespace Line

variable (s : Line)

/-- What a register reads may differ from one read to the next. -/
def readl (status : Nat → Word → Word) (address : Word) : Word × Line :=
  let value := status s.reads address
  (value, ⟨s.reads + 1, s.log ++ [.readl value address]⟩)

def writel (value address : Word) : Line :=
  { s with log := s.log ++ [.writel value address] }

end Line

section Code

variable (base : Word) (status : Nat → Word → Word) (fuel : Nat)

/-- `while (!(readl(address) & mask));`, and `none` when the rounds run out. -/
def waitFor (address mask : Word) : Nat → Line → Option Line
  | 0, _ => none
  | fuel + 1, s =>
      let (value, s) := s.readl status address
      if value &&& mask = 0 then waitFor address mask fuel s else some s

/-- Checks if the transmit FIFO is empty, and waits for `TX_READY` if not. -/
def awaitEmpty (s : Line) : Option Line :=
  let (value, s) := s.readl status (dmSr base)
  if value &&& srTxemt = 0 then waitFor status (dmIsr base) txReady fuel s
  else some s

/-- A line feed is put together with a carriage return. -/
def txWord (c : Byte) : Word :=
  if c = lineFeed then
    carriageReturn.setWidth 32 <<< 8 ||| lineFeed.setWidth 32
  else c.setWidth 32

/-- A line at `NONE` is quiet. -/
def serialPutc (c : Byte) (s : Line) : Option Line :=
  if base = 0 then
    some s
  else do
    let numOfChars : Word := 1
    let s ← awaitEmpty base status fuel s
    let s := s.writel numOfChars (dmNoCharsForTx base)
    let s := s.writel gcmdResTxRdyInt (dmCr base)
    let s ← waitFor status (dmSr base) srTxrdy fuel s
    return s.writel (txWord c) (dmTf base 0)

end Code

/-! The device. -/

/-- What goes out: of every word as many characters as the device has been
told to expect, the lowest first. -/
def transmitted (base : Word) : Word → List Event → List Byte
  | _, [] => []
  | noChars, .readl _ _ :: rest => transmitted base noChars rest
  | noChars, .writel value address :: rest =>
      if address = dmNoCharsForTx base then transmitted base value rest
      else if address = dmTf base 0 then
        (List.range noChars.toNat).map value.byte ++
          transmitted base noChars rest
      else transmitted base noChars rest

/-- A read that says that the device has nothing left to send. -/
inductive Emptied (base : Word) : Event → Prop
  | sr {value : Word} (empty : value &&& srTxemt ≠ 0) :
      Emptied base (.readl value (dmSr base))
  | isr {value : Word} (empty : value &&& txReady ≠ 0) :
      Emptied base (.readl value (dmIsr base))

/-- A read that says that the device has room for characters. -/
inductive HasRoom (base : Word) : Event → Prop
  | sr {value : Word} (room : value &&& srTxrdy ≠ 0) :
      HasRoom base (.readl value (dmSr base))

/-- Right before the device is told what to expect it has been found empty, and
right before it is given characters there has been room for them. -/
def Allowed (base : Word) (last : Option Event) : Event → Prop
  | .readl _ _ => True
  | .writel _ address =>
      (address = dmNoCharsForTx base →
        ∃ event, last = some event ∧ Emptied base event) ∧
      (address = dmTf base 0 → ∃ event, last = some event ∧ HasRoom base event)

def Handshakes (base : Word) : Option Event → List Event → Prop
  | _, [] => True
  | last, event :: rest =>
      Allowed base last event ∧ Handshakes base (some event) rest

/-- Whenever the driver waits, the device becomes ready at some time. -/
def Live (base : Word) (status : Nat → Word → Word) : Prop :=
  ∀ n, (∃ k, status (n + k) (dmSr base) &&& srTxrdy ≠ 0) ∧
    ∃ k, status (n + k) (dmIsr base) &&& txReady ≠ 0

/-- What the driver has done sends the text, in whichever state the device is
found, and keeps to the protocol of the device. -/
structure Sends (base : Word) (text : List Byte) (events : List Event) :
    Prop where
  transmitted : ∀ noChars rest, ∃ after,
    transmitted base noChars (events ++ rest) =
      text ++ Uart.transmitted base after rest
  handshakes : ∀ last rest, (∀ last, Handshakes base last rest) →
    Handshakes base last (events ++ rest)

section Sends

variable {base : Word}

theorem Sends.nil : Sends base [] [] where
  transmitted noChars _ := ⟨noChars, rfl⟩
  handshakes last _ onward := onward last

theorem Sends.append {text more : List Byte} {events others : List Event}
    (first : Sends base text events) (second : Sends base more others) :
    Sends base (text ++ more) (events ++ others) where
  transmitted noChars rest := by
    obtain ⟨between, sent⟩ := first.transmitted noChars (others ++ rest)
    obtain ⟨after, later⟩ := second.transmitted between rest
    exact ⟨after, by rw [List.append_assoc, List.append_assoc, sent, later]⟩
  handshakes last rest onward := by
    rw [List.append_assoc]
    exact first.handshakes last _ fun last => second.handshakes last _ onward

theorem Sends.transmitted_eq {text : List Byte} {events : List Event}
    (sends : Sends base text events) (noChars : Word) :
    Uart.transmitted base noChars events = text := by
  obtain ⟨after, sent⟩ := sends.transmitted noChars []
  rwa [List.append_nil, Uart.transmitted, List.append_nil] at sent

theorem Sends.keeps {text : List Byte} {events : List Event}
    (sends : Sends base text events) (last : Option Event) :
    Handshakes base last events := by
  have kept := sends.handshakes last [] fun _ => trivial
  rwa [List.append_nil] at kept

end Sends

/-- Reads send nothing, and are always allowed. -/
def OnlyReads (events : List Event) : Prop :=
  ∀ event ∈ events, ∃ value address, event = .readl value address

section OnlyReads

variable {base : Word} {events rest : List Event}

theorem OnlyReads.transmitted (reads : OnlyReads events) (noChars : Word) :
    transmitted base noChars (events ++ rest) =
      Uart.transmitted base noChars rest := by
  induction events with
  | nil => rfl
  | cons event events ih =>
      obtain ⟨value, address, rfl⟩ := reads event List.mem_cons_self
      exact ih fun other member => reads other (List.mem_cons_of_mem _ member)

theorem OnlyReads.handshakes (reads : OnlyReads events)
    (onward : ∀ last, Handshakes base last rest) (last : Option Event) :
    Handshakes base last (events ++ rest) := by
  induction events generalizing last with
  | nil => exact onward last
  | cons event events ih =>
      obtain ⟨value, address, rfl⟩ := reads event List.mem_cons_self
      exact ⟨trivial,
        ih (fun other member => reads other (List.mem_cons_of_mem _ member)) _⟩

end OnlyReads

section Driver

variable {base : Word} {status : Nat → Word → Word} {fuel : Nat} {s t : Line}

/-- A wait ends with the read that it has been waiting for. -/
theorem waitFor_sees {address mask : Word}
    (waits : waitFor status address mask fuel s = some t) :
    ∃ polls value, t.log = s.log ++ (polls ++ [.readl value address]) ∧
      OnlyReads polls ∧ value &&& mask ≠ 0 := by
  induction fuel generalizing s with
  | zero => cases waits
  | succ fuel ih =>
      rw [waitFor] at waits
      dsimp only [Line.readl] at waits
      split at waits
      next =>
        obtain ⟨polls, value, log, quiet, seen⟩ := ih waits
        refine ⟨.readl (status s.reads address) address :: polls, value, ?_, ?_,
          seen⟩
        · rw [log, List.append_assoc]
          rfl
        · exact List.forall_mem_cons.mpr ⟨⟨_, _, rfl⟩, quiet⟩
      next seen =>
        cases waits
        exact ⟨[], _, rfl, nofun, seen⟩

/-- With enough rounds, the outcome no longer depends on their number. -/
theorem waitFor_returns {address mask : Word} {k : Nat} {s : Line}
    (ready : status (s.reads + k) address &&& mask ≠ 0) :
    ∃ t, ∀ fuel, k < fuel → waitFor status address mask fuel s = some t := by
  induction k generalizing s with
  | zero =>
      refine ⟨(s.readl status address).2, fun fuel more => ?_⟩
      obtain ⟨fuel, rfl⟩ := Nat.exists_eq_add_of_lt more
      rw [Nat.zero_add, waitFor]
      exact if_neg ready
  | succ k ih =>
      by_cases idle : status s.reads address &&& mask = 0
      · obtain ⟨t, returns⟩ := ih (s := (s.readl status address).2)
          (by dsimp only [Line.readl]; rwa [Nat.add_right_comm])
        refine ⟨t, fun fuel more => ?_⟩
        obtain ⟨fuel, rfl⟩ := Nat.exists_eq_add_of_lt more
        rw [waitFor]
        exact (if_pos idle).trans (returns _ (by omega))
      · refine ⟨(s.readl status address).2, fun fuel more => ?_⟩
        obtain ⟨fuel, rfl⟩ := Nat.exists_eq_add_of_lt more
        rw [waitFor]
        exact if_neg idle

/-- One character, from the read that finds the device empty on. -/
theorem sends_char {empty : Event} (emptied : Emptied base empty)
    {polls : List Event} (quiet : OnlyReads polls) {ready : Word}
    (room : ready &&& srTxrdy ≠ 0) (word : Word) :
    Sends base [word.byte 0] (empty ::
      .writel 1 (dmNoCharsForTx base) :: .writel gcmdResTxRdyInt (dmCr base) ::
        (polls ++ [.readl ready (dmSr base), .writel word (dmTf base 0)])) := by
  have first : dmCr base ≠ dmNoCharsForTx base := by
    unfold dmCr dmNoCharsForTx
    bv_omega
  have second : dmCr base ≠ dmTf base 0 := by
    unfold dmCr dmTf
    bv_omega
  have third : dmTf base 0 ≠ dmNoCharsForTx base := by
    unfold dmTf dmNoCharsForTx
    bv_omega
  obtain ⟨value, address, read⟩ : ∃ value address,
      empty = .readl value address := by
    cases emptied with
    | sr _ => exact ⟨_, _, rfl⟩
    | isr _ => exact ⟨_, _, rfl⟩
  constructor
  · intro noChars rest
    refine ⟨1, ?_⟩
    simp only [read, List.cons_append, List.append_assoc, transmitted,
      if_neg first, if_neg second, if_pos, quiet.transmitted, List.nil_append]
    rw [if_neg third]
    rfl
  · intro last rest onward
    have text (last : Option Event) : Handshakes base last
        ([.readl ready (dmSr base), .writel word (dmTf base 0)] ++ rest) :=
      ⟨trivial, ⟨fun same => absurd same third,
        fun _ => ⟨_, rfl, .sr room⟩⟩, onward _⟩
    refine ⟨by rw [read]; trivial, ⟨fun _ => ⟨_, rfl, emptied⟩,
      fun same => absurd same.symm third⟩, ⟨fun same => absurd same first,
        fun same => absurd same second⟩, ?_⟩
    change Handshakes base _ ((polls ++ _) ++ rest)
    rw [List.append_assoc]
    exact quiet.handshakes text _

/-- The second character of the word is never sent: one is all that the device
has been told to expect. -/
theorem byte_txWord (c : Byte) : (txWord c).byte 0 = c := by
  unfold txWord
  split
  next same =>
    rw [same]
    decide
  next =>
    rw [Word.setWidth_eq_pack]
    exact Word.byte_zero_pack c 0 0 0

theorem OnlyReads.sends {polls : List Event} (quiet : OnlyReads polls)
    {text : List Byte} {events : List Event} (sends : Sends base text events) :
    Sends base text (polls ++ events) where
  transmitted noChars rest := by
    obtain ⟨after, sent⟩ := sends.transmitted noChars rest
    exact ⟨after, by rw [List.append_assoc, quiet.transmitted, sent]⟩
  handshakes last rest onward := by
    rw [List.append_assoc]
    exact quiet.handshakes (fun last => sends.handshakes last rest onward) last

theorem awaitEmpty_sees (empties : awaitEmpty base status fuel s = some t) :
    ∃ polls empty, t.log = s.log ++ (polls ++ [empty]) ∧ OnlyReads polls ∧
      Emptied base empty := by
  rw [awaitEmpty] at empties
  dsimp only [Line.readl] at empties
  split at empties
  next =>
    obtain ⟨polls, value, log, reads, seen⟩ := waitFor_sees empties
    refine ⟨.readl (status s.reads (dmSr base)) (dmSr base) :: polls, _, ?_,
      List.forall_mem_cons.mpr ⟨⟨_, _, rfl⟩, reads⟩, .isr seen⟩
    rw [log, List.append_assoc]
    rfl
  next seen =>
    cases empties
    exact ⟨[], _, rfl, nofun, .sr seen⟩

/-- A character goes out as it is. -/
theorem serialPutc_sends (on : base ≠ 0) {c : Byte}
    (puts : serialPutc base status fuel c s = some t) :
    ∃ events, t.log = s.log ++ events ∧ Sends base [c] events := by
  rw [serialPutc, if_neg on] at puts
  obtain ⟨u, empties, puts⟩ := Option.bind_eq_some_iff.mp puts
  obtain ⟨v, rooms, puts⟩ := Option.bind_eq_some_iff.mp puts
  cases puts
  obtain ⟨before, empty, first, waited, emptied⟩ := awaitEmpty_sees empties
  obtain ⟨polls, ready, second, quiet, room⟩ := waitFor_sees rooms
  refine ⟨_, ?_, byte_txWord c ▸ waited.sends (sends_char emptied quiet room _)⟩
  simp only [Line.writel, second, first, List.append_assoc, List.cons_append,
    List.nil_append]

theorem awaitEmpty_returns (live : Live base status) (s : Line) :
    ∃ t enough, ∀ fuel, enough ≤ fuel →
      awaitEmpty base status fuel s = some t := by
  by_cases busy : status s.reads (dmSr base) &&& srTxemt = 0
  · obtain ⟨k, ready⟩ := (live (s.reads + 1)).2
    obtain ⟨t, returns⟩ :=
      waitFor_returns (s := (s.readl status (dmSr base)).2) ready
    exact ⟨t, k + 1, fun fuel more => (if_pos busy).trans (returns fuel more)⟩
  · exact ⟨_, 0, fun fuel _ => if_neg busy⟩

theorem serialPutc_returns (live : Live base status) (c : Byte) (s : Line) :
    ∃ t enough, ∀ fuel, enough ≤ fuel →
      serialPutc base status fuel c s = some t := by
  by_cases quiet : base = 0
  · exact ⟨s, 0, fun fuel _ => if_pos quiet⟩
  · obtain ⟨u, first, empties⟩ := awaitEmpty_returns live s
    obtain ⟨k, ready⟩ := (live u.reads).1
    obtain ⟨v, rooms⟩ := waitFor_returns
      (s := (u.writel 1 (dmNoCharsForTx base)).writel gcmdResTxRdyInt
        (dmCr base)) ready
    refine ⟨v.writel (txWord c) (dmTf base 0), max first (k + 1),
      fun fuel more => ?_⟩
    rw [serialPutc, if_neg quiet]
    exact Option.bind_eq_some_iff.mpr ⟨u, empties fuel (by omega),
      Option.bind_eq_some_iff.mpr ⟨v, rooms fuel (by omega), rfl⟩⟩

end Driver

end AuxLoader.Uart
