import AuxLoader.Data.Loop
import AuxLoader.Data.Memory

namespace AuxLoader

open Data

/-! The delay loop of `timer.c`. -/

def gptFreqKhz : Word := 32
def gptFreq : Word := gptFreqKhz * 1000

structure UdelayState where
  read : Nat
  last : Word
  runcount : Word

/-- One reading of `GPT_COUNT_VAL`; the loop exits with its number. -/
def udelayBody (gptCountVal : Nat → Word) (val : Word) :
    Loop Nat UdelayState Nat := fun s => do
  let now ← .touch [s.read] (gptCountVal s.read)
  let runcount :=
    if s.last > now then s.runcount + ((gptFreq - s.last) + now)
    else s.runcount + (now - s.last)
  if runcount < val then return .inl ⟨s.read + 1, now, runcount⟩
  else return .inr s.read

/-- `__udelay`, given what the counter reads each time it is read. -/
def udelay (gptCountVal : Nat → Word) (usec : Word) (fuel : Nat) :
    Traced Nat (Option Nat) := do
  let usec := (usec + gptFreqKhz - 1) / gptFreqKhz
  let last ← .touch [0] (gptCountVal 0)
  let runcount := last
  let val := usec + last
  (udelayBody gptCountVal val).run fuel ⟨1, last, runcount⟩

/-! A counter that runs freely, read at true tick times. -/

structure Ticks (time : Nat → Nat) : Prop where
  mono : ∀ i, time i ≤ time (i + 1)
  near : ∀ i, time (i + 1) < time i + 2 ^ 32

def counterAt (time : Nat → Nat) (i : Nat) : Word := BitVec.ofNat 32 (time i)

def ReturnsAfter (time : Nat → Nat) (usec : Word) (k : Nat) : Prop :=
  ∃ fuel, (udelay (counterAt time) usec fuel).val = some k

/-- The ticks that make up a delay. -/
def delayTicks (usec : Word) : Nat := (usec.toNat + 31) / 32

/-- No delay that starts at that time ends too early. -/
def NeverEarly (usec : Word) (start : Nat) : Prop :=
  ∀ time, time 0 = start → Ticks time → ∀ k, ReturnsAfter time usec k →
    delayTicks usec ≤ time k - start

section Delay

variable {time : Nat → Nat} {usec : Word}

def UdelayState.count (gptCountVal : Nat → Word) (s : UdelayState) :
    UdelayState where
  read := s.read + 1
  last := gptCountVal s.read
  runcount :=
    if s.last > gptCountVal s.read then
      s.runcount + ((gptFreq - s.last) + gptCountVal s.read)
    else s.runcount + (gptCountVal s.read - s.last)

theorem val_udelayBody (gptCountVal : Nat → Word) (val : Word)
    (s : UdelayState) :
    (udelayBody gptCountVal val s).val =
      if (s.count gptCountVal).runcount < val then .inl (s.count gptCountVal)
      else .inr s.read := by
  by_cases more : (s.count gptCountVal).runcount < val
  · rw [if_pos more]
    exact congrArg Traced.val (if_pos more)
  · rw [if_neg more]
    exact congrArg Traced.val (if_neg more)

/-- The loop has counted every tick so far, or the delay is over. -/
structure Counting (time : Nat → Nat) (usec : Word) (s : UdelayState) : Prop
    where
  positive : 0 < s.read
  last : s.last = counterAt time (s.read - 1)
  later : time 0 ≤ time (s.read - 1)
  counted : time (s.read - 1) / 2 ^ 32 = time 0 / 2 ^ 32 ∧
      s.runcount = s.last ∨
    time 0 + delayTicks usec ≤ time (s.read - 1)

theorem Counting.count {s : UdelayState} (counting : Counting time usec s)
    (ticks : Ticks time)
    (room : time 0 % 2 ^ 32 + delayTicks usec < 2 ^ 32) :
    Counting time usec (s.count (counterAt time)) := by
  obtain ⟨i, index⟩ := Nat.exists_eq_add_of_lt counting.positive
  rw [Nat.zero_add] at index
  have mono := ticks.mono i
  have near := ticks.near i
  have later := counting.later
  have last := counting.last
  have counted := counting.counted
  rw [index, Nat.add_sub_cancel] at later last counted
  have lastNat : s.last.toNat = time i % 2 ^ 32 := by
    rw [last, counterAt, BitVec.toNat_ofNat]
  have nowNat : (counterAt time (i + 1)).toNat = time (i + 1) % 2 ^ 32 := by
    rw [counterAt, BitVec.toNat_ofNat]
  refine ⟨Nat.succ_pos _, ?_, ?_, ?_⟩
  · rfl
  · exact later.trans (by rwa [UdelayState.count, index, Nat.add_sub_cancel])
  · simp only [UdelayState.count, index, Nat.add_sub_cancel]
    rcases counted with ⟨epoch, same⟩ | past
    · have order : s.last > counterAt time (i + 1) ↔
          time (i + 1) % 2 ^ 32 < time i % 2 ^ 32 := by
        rw [gt_iff_lt, BitVec.lt_def, lastNat, nowNat]
      by_cases wrapped : s.last > counterAt time (i + 1)
      · -- The counter has come round, past every target that needs no carry.
        rw [order] at wrapped
        exact .inr (by omega)
      · have onward := mt order.mpr wrapped
        refine .inl ⟨by omega, ?_⟩
        rw [if_neg wrapped, same, BitVec.add_comm, BitVec.sub_add_cancel]
    · exact .inr (past.trans mono)

/-- The delay in ticks, as the code computes it. -/
theorem toNat_usec (usec : Word) :
    ((usec + gptFreqKhz - 1) / gptFreqKhz).toNat =
      (usec.toNat + 31) % 2 ^ 32 / 32 := by
  have rounded : usec + gptFreqKhz - 1 = usec + 31 := by
    rw [BitVec.sub_eq_add_neg, BitVec.add_assoc]
    rfl
  rw [BitVec.toNat_udiv, rounded, BitVec.toNat_add]
  rfl

theorem delay_over (ticks : Ticks time) (whole : usec.toNat + 31 < 2 ^ 32)
    (room : time 0 % 2 ^ 32 + delayTicks usec < 2 ^ 32) {k : Nat}
    (returns : ReturnsAfter time usec k) :
    time 0 + delayTicks usec ≤ time k := by
  obtain ⟨fuel, returned⟩ := returns
  let val := (usec + gptFreqKhz - 1) / gptFreqKhz + counterAt time 0
  have target : val.toNat = delayTicks usec + time 0 % 2 ^ 32 := by
    rw [BitVec.toNat_add, toNat_usec, Nat.mod_eq_of_lt whole, counterAt,
      BitVec.toNat_ofNat, Nat.add_comm]
    exact (Nat.mod_eq_of_lt room).trans (Nat.add_comm _ _)
  have start : Counting time usec ⟨1, counterAt time 0, counterAt time 0⟩ :=
    ⟨Nat.one_pos, rfl, Nat.le_refl _, .inl ⟨rfl, rfl⟩⟩
  have ran : ((udelayBody (counterAt time) val).run fuel
      ⟨1, counterAt time 0, counterAt time 0⟩).val = some k := returned
  refine Loop.run_val_induct (Q := fun k => time 0 + delayTicks usec ≤ time k)
    ?_ ?_ start ran
  · intro s t counting step
    have next := counting.count ticks room
    rw [Loop.Step, val_udelayBody] at step
    split at step
    · cases step
      exact next
    · cases step
  · intro s r counting exit
    have next := counting.count ticks room
    rw [val_udelayBody] at exit
    split at exit
    next => cases exit
    next stops =>
      cases exit
      have later := next.later
      have last := next.last
      have counted := next.counted
      simp only [show (s.count (counterAt time)).read - 1 = s.read from rfl]
        at later last counted
      rcases counted with ⟨epoch, same⟩ | past
      · have reached : ¬ counterAt time s.read < val := by
          rw [← last, ← same]
          exact stops
        rw [BitVec.lt_def, target, counterAt, BitVec.toNat_ofNat] at reached
        omega
      · exact past

/-- With a counter that stands still, the loop returns at once if the target
is not above the start. -/
theorem still_returns (usec : Word) (start : Nat)
    (reached : ¬ BitVec.ofNat 32 start <
      (usec + gptFreqKhz - 1) / gptFreqKhz + BitVec.ofNat 32 start) :
    ReturnsAfter (fun _ => start) usec 1 := by
  refine ⟨1, ?_⟩
  have runcount : (UdelayState.count (counterAt fun _ => start)
      ⟨1, BitVec.ofNat 32 start, BitVec.ofNat 32 start⟩).runcount =
        BitVec.ofNat 32 start := by
    simp [UdelayState.count, counterAt]
  rw [← runcount] at reached
  have exit := (val_udelayBody (counterAt fun _ => start)
    ((usec + gptFreqKhz - 1) / gptFreqKhz + BitVec.ofNat 32 start)
    ⟨1, BitVec.ofNat 32 start, BitVec.ofNat 32 start⟩).trans
      (if_neg (by rwa [runcount] at reached ⊢))
  have ran := Loop.val_run_succ (udelayBody (counterAt fun _ => start)
    ((usec + gptFreqKhz - 1) / gptFreqKhz + BitVec.ofNat 32 start)) 0
    ⟨1, BitVec.ofNat 32 start, BitVec.ofNat 32 start⟩
  rw [exit] at ran
  exact ran

theorem early_of_reached (usec : Word) (start : Nat)
    (reached : ¬ BitVec.ofNat 32 start <
      (usec + gptFreqKhz - 1) / gptFreqKhz + BitVec.ofNat 32 start)
    (never : NeverEarly usec start) : delayTicks usec = 0 := by
  have still : Ticks fun _ => start :=
    ⟨fun _ => Nat.le_refl start, fun _ => Nat.lt_add_of_pos_right (by decide)⟩
  have waited := never _ rfl still 1 (still_returns usec start reached)
  omega

/-- The target and the rounded delay must not overflow: a target beyond the wrap
looks as if it had been reached. -/
theorem neverEarly_iff (usec : Word) (start : Nat) :
    NeverEarly usec start ↔
      usec.toNat + 31 < 2 ^ 32 ∧
        start % 2 ^ 32 + delayTicks usec < 2 ^ 32 := by
  constructor
  · intro never
    by_contra overflows
    have small := usec.isLt
    have positive : delayTicks usec ≠ 0 := by
      unfold delayTicks
      unfold delayTicks at overflows
      omega
    refine positive (early_of_reached usec start ?_ never)
    rw [BitVec.lt_def, BitVec.toNat_add, toNat_usec, BitVec.toNat_ofNat]
    unfold delayTicks at overflows
    omega
  · rintro ⟨whole, room⟩ time rfl ticks k returns
    have past := delay_over ticks whole room returns
    omega

end Delay

theorem udelay_early_nearWrap : ¬ NeverEarly 1000 0xfffffff0 := by
  intro never
  have none := early_of_reached 1000 0xfffffff0 (by decide) never
  exact absurd none (by decide)

end AuxLoader
