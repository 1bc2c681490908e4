import AuxLoader.Timer

namespace AuxLoader

open Data

/-! A delay on a clock that goes on. -/

/-- A counter that gets on, by so many ticks at most from one reading to the
next. -/
structure Clock (time : Nat → Nat) (step : Nat) : Prop where
  mono : ∀ i, time i ≤ time (i + 1)
  near : ∀ i, time (i + 1) ≤ time i + step
  onward : ∀ n, ∃ i, n ≤ time i

section Delay

variable {time : Nat → Nat} {step : Nat} {usec : Word}

theorem Clock.later (clock : Clock time step) (n : Nat) :
    Clock (fun i => time (n + i)) step where
  mono i := clock.mono (n + i)
  near i := clock.near (n + i)
  onward m := by
    obtain ⟨i, reached⟩ := clock.onward m
    have mono := monotone_nat_of_le_succ clock.mono
    exact ⟨i, reached.trans (mono (Nat.le_add_left i n))⟩

end Delay

end AuxLoader
