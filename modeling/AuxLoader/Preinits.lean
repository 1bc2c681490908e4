import AuxLoader.PhyLog
import AuxLoader.Waits

namespace AuxLoader

open Data

/-! The start of a board that needs its switches reset and its PHYs powered
down. -/

namespace Mdio

/-! The pins. -/

/-- Nothing but writes, and only the listed registers may have changed. -/
structure Writes (addresses : List Word) (s t : Bus) (events : List Event) :
    Prop where
  log : t.log = s.log ++ events
  quiet : ∀ w, .transfer w ∉ events
  registers : ∀ a, a ∉ addresses → t.registers a = s.registers a

def Touches (addresses : List Word) (s t : Bus) : Prop :=
  ∃ events, Writes addresses s t events

section Touches

variable {addresses more : List Word} {s t u : Bus}

theorem Touches.trans (first : Touches addresses s t)
    (second : Touches more t u) : Touches (addresses ++ more) s u := by
  obtain ⟨events, first⟩ := first
  obtain ⟨others, second⟩ := second
  refine ⟨events ++ others, ?_, ?_, ?_⟩
  · rw [second.log, first.log, List.append_assoc]
  · intro w member
    exact (List.mem_append.mp member).elim (first.quiet w) (second.quiet w)
  · intro a outside
    rw [List.mem_append, not_or] at outside
    rw [second.registers a outside.2, first.registers a outside.1]

theorem Touches.registers (touches : Touches addresses s t) {a : Word}
    (outside : a ∉ addresses) : t.registers a = s.registers a := by
  obtain ⟨_, writes⟩ := touches
  exact writes.registers a outside

theorem Touches.mono (touches : Touches addresses s t)
    (within : addresses ⊆ more) : Touches more s t := by
  obtain ⟨events, writes⟩ := touches
  exact ⟨events, { writes with
    registers := fun a outside =>
      writes.registers a fun member => outside (within member) }⟩

end Touches

section Board

end Board

section Stages

variable (replies : Nat → Reply) (s : Bus)

end Stages

end Mdio

end AuxLoader
