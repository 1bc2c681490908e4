import AuxLoader.Clock
import AuxLoader.PhyLog

namespace AuxLoader.Mdio

open Data

/-! The power-down with its waits. -/

inductive Moment
  | bus (event : Event)
  /-- the reading of `GPT_COUNT_VAL` with this number -/
  | count (n : Nat)

/-- The registers, how often the counter has been read, and what has been
done. -/
structure Board where
  bus : Bus
  reads : Nat
  log : List Moment

/-- The readings from one number up to another. -/
def counted (first last : Nat) : List Moment :=
  (List.range' first (last - first)).map .count

namespace Board

def act (f : Bus → Bus) (s : Board) : Board :=
  let bus := f s.bus
  ⟨bus, s.reads, s.log ++ (bus.log.drop s.bus.log.length).map .bus⟩

section Code

variable (gptCountVal : Nat → Word) (fuel : Nat)

def udelay (usec : Word) (s : Board) : Option Board :=
  (AuxLoader.udelay (fun i => gptCountVal (s.reads + i)) usec fuel).val.map
    fun last =>
      ⟨s.bus, s.reads + last + 1,
        s.log ++ counted s.reads (s.reads + last + 1)⟩

end Code

section Transfers

variable (replies : Nat → Reply) (gptCountVal : Nat → Word) (fuel : Nat)

/-- The waits of the polls `while (limiter++ < 10)`, of which `tries` are
left. -/
def awaitIdle (addrReg : Nat → Word) : Nat → Nat → Board → Option Board
  | 0, _, s => some s
  | tries + 1, limiter, s =>
      if addrReg limiter &&& miiBusy = 0 then some s
      else do
        let s ← s.udelay gptCountVal fuel 1000
        awaitIdle addrReg tries (limiter + 1) s

/-- A transfer `f` of the bus, with the wait that follows its start and those of
its polls. -/
def transfer (f : Bus → Word × Bus) (s : Board) : Option (Word × Board) := do
  let reply := replies s.bus.count
  let retVal := (f s.bus).1
  let s := s.act fun bus => (f bus).2
  let s ← s.udelay gptCountVal fuel 10
  let s ← s.awaitIdle gptCountVal fuel reply.addrReg 10 0
  return (retVal, s)

/-- `Mdio.awaitPhy`, with a wait after each ID that is not the expected one. -/
def awaitPhy (a : Word) : Nat → Nat → Board → Option (Nat × Board)
  | 0, limiter, s => some (limiter + 1, s)
  | tries + 1, limiter, s => do
      let limiter := limiter + 1
      let (val, s) ←
        s.transfer replies gptCountVal fuel (ipqPhyRead replies a miiPhysid1)
      if val = 0x4d then
        let (val, s) ←
          s.transfer replies gptCountVal fuel (ipqPhyRead replies a miiBmcr)
        let val := val ||| bmcrPdown
        let (_, s) ← s.transfer replies gptCountVal fuel
          (ipqPhyWrite replies a miiBmcr (val.setWidth 16))
        return (limiter, s)
      else
        let s ← s.udelay gptCountVal fuel 1000
        awaitPhy a tries limiter s

def pwdownPhy (a : Word) (s : Board) : Option Board := do
  let (limiter, s) ← s.awaitPhy replies gptCountVal fuel a 100 0
  if limiter > 100 then
    return s.act (gpioSetValue gpioLcdPower 1)
  else
    return s

def pwdownPhys (s : Board) : Nat → Option Board
  | 0 => some s
  | n + 1 => do
      let s ← s.pwdownPhys n
      s.pwdownPhy replies gptCountVal fuel (BitVec.ofNat 32 n)

def doPhysPwdown (mdioNum : Int) (s : Board) : Option Board :=
  let s := s.act fun bus => { bus with mdioRegBase := mdioBase mdioNum }
  s.pwdownPhys replies gptCountVal fuel 5

end Transfers

end Board

section Board

variable {time : Nat → Nat} {step : Nat}

end Board

/-! What a stretch of the run does and how long it takes. -/

def Moment.event? : Moment → Option Event
  | .bus event => some event
  | .count _ => none

theorem filterMap_bus (events : List Event) :
    (events.map Moment.bus).filterMap Moment.event? = events := by
  rw [List.filterMap_map]
  exact List.filterMap_some

/-- At most so many ticks have passed, and what has been done is what the bus
says. -/
structure Elapses (time : Nat → Nat) (ticks : Nat) (s t : Board) : Prop where
  later : time s.reads ≤ time t.reads
  soon : time t.reads ≤ time s.reads + ticks
  log : ∃ moments, t.log = s.log ++ moments ∧
    t.bus.log = s.bus.log ++ moments.filterMap Moment.event?

/-- With room for so many ticks before the counter comes round, the run ends
within them and leaves the bus so. -/
def Reaches {α : Type} (time : Nat → Nat) (ticks : Nat) (s : Board) (bus : Bus)
    (result : Board → α) (run : Nat → Option α) : Prop :=
  time s.reads % 2 ^ 32 + ticks < 2 ^ 32 →
    ∃ t, (∃ enough, ∀ fuel, enough ≤ fuel → run fuel = some (result t)) ∧
      t.bus = bus ∧ Elapses time ticks s t

section Reaches

variable {α β : Type} {time : Nat → Nat} {step m n ticks : Nat}
  {s t u : Board} {bus last : Bus} {result : Board → α} {final : Board → β}
  {run : Nat → Option α} {next : Nat → α → Option β}

theorem Elapses.refl (s : Board) : Elapses time 0 s s :=
  ⟨le_rfl, le_rfl, [], by simp, by simp⟩

theorem Elapses.trans (first : Elapses time m s t)
    (second : Elapses time n t u) : Elapses time (m + n) s u := by
  obtain ⟨moments, log, events⟩ := first.log
  obtain ⟨others, rest, more⟩ := second.log
  refine ⟨first.later.trans second.later, ?_, moments ++ others, ?_, ?_⟩
  · have soon := first.soon
    have onward := second.soon
    omega
  · rw [rest, log, List.append_assoc]
  · rw [more, events, List.filterMap_append, List.append_assoc]

theorem Elapses.mono (elapsed : Elapses time m s t) (within : m ≤ ticks) :
    Elapses time ticks s t :=
  { elapsed with soon := elapsed.soon.trans (Nat.add_le_add_left within _) }

theorem elapses_act {f : Bus → Bus} (s : Board) {events : List Event}
    (does : (f s.bus).log = s.bus.log ++ events) :
    Elapses time 0 s (s.act f) := by
  refine ⟨le_rfl, le_rfl, events.map .bus, ?_, ?_⟩
  · rw [Board.act, does, List.drop_left]
  · rw [filterMap_bus]
    exact does

theorem Reaches.pure (elapsed : Elapses time ticks s t) (same : t.bus = bus)
    (value : ∀ fuel, run fuel = some (result t)) :
    Reaches time ticks s bus result run := fun _ =>
  ⟨t, ⟨0, fun fuel _ => value fuel⟩, same, elapsed⟩

/-- One stretch after the other, in the room for both. -/
theorem Reaches.bind (first : Reaches time m s bus result run)
    (within : m + n ≤ ticks)
    (rest : ∀ t, t.bus = bus → Elapses time m s t →
      Reaches time n t last final fun fuel => next fuel (result t)) :
    Reaches time ticks s last final fun fuel => run fuel >>= next fuel := by
  intro room
  obtain ⟨t, ⟨enough, runs⟩, same, elapsed⟩ := first (by omega)
  have later := elapsed.later
  have soon := elapsed.soon
  obtain ⟨u, ⟨more, goes⟩, ends, onward⟩ := rest t same elapsed (by omega)
  refine ⟨u, ⟨max enough more, fun fuel long => ?_⟩, ends,
    (elapsed.trans onward).mono within⟩
  dsimp only
  rw [runs fuel (by omega)]
  exact goes fuel (by omega)

/-- What starts with an action starts on the board that it leaves. -/
theorem Reaches.act {f : Bus → Bus} {events : List Event}
    (does : (f s.bus).log = s.bus.log ++ events)
    (rest : Reaches time ticks (s.act f) bus result run) :
    Reaches time ticks s bus result run := by
  intro room
  obtain ⟨t, runs, same, elapsed⟩ := rest room
  exact ⟨t, runs, same, ((elapses_act s does).trans elapsed).mono
    (Nat.zero_add ticks).le⟩

end Reaches

/-! The power-down, stretch by stretch. -/

section Stretches

variable {replies : Nat → Reply} {time : Nat → Nat} {step : Nat}

section Await

variable {a regnum : Word} {tries limiter : Nat} {s : Bus}

end Await

end Stretches

end AuxLoader.Mdio
