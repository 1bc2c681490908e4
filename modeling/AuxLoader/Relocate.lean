import AuxLoader.Data.Copy
import AuxLoader.Data.Loop
import AuxLoader.Machine

namespace AuxLoader

open Data

/-! The relocation of `head.S`, which copies the payload to its text base. -/

/-- A word that an instruction loads or stores. -/
inductive Access
  | load (address : Word)
  | store (address : Word)
  deriving DecidableEq

def Access.address : Access → Word
  | .load address => address
  | .store address => address

/-- `ldmia r0!, {r9-r10}`: the new `r0` and the two words. -/
def ldmia (mem : Memory) (r0 : Word) : Traced Access (Word × Word × Word) :=
  .touch [.load r0, .load (r0 + 4)] (r0 + 8, mem.word r0, mem.word (r0 + 4))

/-- `stmia r1!, {r9-r10}`: the new `r1` and the memory. -/
def stmia (mem : Memory) (r1 r9 r10 : Word) : Traced Access (Word × Memory) :=
  .touch [.store r1, .store (r1 + 4)]
    (r1 + 8, (mem.setWord r1 r9).setWord (r1 + 4) r10)

structure CopyLoop where
  r0 : Word
  r1 : Word
  mem : Memory

/-- From `copy_loop` to `blo copy_loop`, which compares without sign. -/
def copyLoopBody (r2 : Word) : Loop Access CopyLoop CopyLoop := fun s => do
  let (r0, r9, r10) ← ldmia s.mem s.r0
  let (r1, mem) ← stmia s.mem s.r1 r9 r10
  if r0 < r2 then
    return .inl ⟨r0, r1, mem⟩
  else
    return .inr ⟨r0, r1, mem⟩

/-- `none` when `r0` goes round the address space for ever. -/
def copyLoop (mem : Memory) (r0 r1 r2 : Word) :
    Traced Access (Option CopyLoop) :=
  (copyLoopBody r2).run (2 ^ 32) ⟨r0, r1, mem⟩

/-- What the linker script makes of the first stage: the payload starts at a
multiple of 32 and its end does not come before its start. -/
structure HeadImage where
  textBase : Word
  payloadDataBeginOfs : Word
  payloadDataEndOfs : Word
  begin_aligned : 32 ∣ payloadDataBeginOfs.toNat
  begin_le_end : payloadDataBeginOfs ≤ payloadDataEndOfs

/-- The second stage as it is entered: the registers it is passed, memory and
what has been done on the way. -/
structure Entered where
  pc : Word
  r0 : Word
  r1 : Word
  r2 : Word
  mem : Memory
  log : List Event

def wdtResetupPeriod : Word := 10

def watchdogResetup (cpuType : CpuType) : List Event :=
  watchdogWrites cpuType wdtResetupPeriod

/-- `relocate_code`, given the destination, the real `_start` and the machine
type. -/
def relocateCode (head : HeadImage) (cpuType : CpuType) (mem : Memory)
    (dst realStart arch : Word) : Traced Access (Option Entered) := do
  let r6 := dst
  let r5 := realStart
  let r4 := arch
  let log := watchdogResetup cpuType
  let r0 := head.payloadDataBeginOfs + r5
  let r2 := head.payloadDataEndOfs + r5
  let copied ← copyLoop mem r0 r6 r2
  return copied.map fun s =>
    { pc := head.textBase, r0 := head.textBase, r1 := r5, r2 := r4,
      mem := s.mem, log := log ++ [.invalidateIcacheAll] }

/-- `_start`: the `pc` that it reads is two instructions ahead. -/
def headStart (head : HeadImage) (cpuType : CpuType) (mem : Memory)
    (start r1 : Word) : Traced Access (Option Entered) :=
  let pc := start + 8
  let r7 := pc - 8
  relocateCode head cpuType mem head.textBase r7 r1

namespace CopyLoop

/-- One round of the loop. -/
def pair (s : CopyLoop) : CopyLoop where
  r0 := s.r0 + 8
  r1 := s.r1 + 8
  mem := (s.mem.setWord s.r1 (s.mem.word s.r0)).setWord (s.r1 + 4)
    (s.mem.word (s.r0 + 4))

theorem r0_pair_iterate (n : Nat) (s : CopyLoop) :
    (pair^[n] s).r0 = s.r0 + BitVec.ofNat 32 (8 * n) :=
  @Word.iterate_add_ofNat _ pair CopyLoop.r0 8 (fun _ => rfl) n s

theorem r1_pair_iterate (n : Nat) (s : CopyLoop) :
    (pair^[n] s).r1 = s.r1 + BitVec.ofNat 32 (8 * n) :=
  @Word.iterate_add_ofNat _ pair CopyLoop.r1 8 (fun _ => rfl) n s

end CopyLoop

theorem copyLoop_doWhile (r2 : Word) :
    (copyLoopBody r2).DoWhile (fun s => s.r0 < r2) CopyLoop.pair where
  goes _ more := congrArg Traced.val (if_pos more)
  stops _ last := congrArg Traced.val (if_neg last)

theorem reads_copyLoopBody (r2 : Word) (s : CopyLoop) :
    (copyLoopBody r2 s).reads =
      [.load s.r0, .load (s.r0 + 4), .store s.r1, .store (s.r1 + 4)] := by
  by_cases more : s.pair.r0 < r2
  · exact congrArg (fun last => _ ++ (_ ++ Traced.reads last)) (if_pos more)
  · exact congrArg (fun last => _ ++ (_ ++ Traced.reads last)) (if_neg more)

/-! What one round copies. -/

namespace CopyLoop

theorem mem_pair (s : CopyLoop) :
    s.pair.mem = (s.mem.setWord s.r1 (s.mem.word s.r0)).setWord (s.r1 + 4)
      (s.mem.word (s.r0 + 4)) := rfl

theorem pair_outside (s : CopyLoop) {a : Word}
    (outside : ¬ Word.Within s.r1 8 a) : s.pair.mem a = s.mem a := by
  have first : ¬ Word.Within s.r1 4 a := by
    unfold Word.Within at *
    omega
  have second : ¬ Word.Within (s.r1 + 4) 4 a := by
    unfold Word.Within at *
    bv_omega
  rw [mem_pair, Memory.setWord_outside _ _ second,
    Memory.setWord_outside _ _ first]

/-- Both words are loaded before the first is stored. -/
theorem pair_inside (s : CopyLoop) {j : Nat} (bound : j < 8) :
    s.pair.mem (s.r1 + BitVec.ofNat 32 j) =
      s.mem (s.r0 + BitVec.ofNat 32 j) := by
  by_cases low : j < 4
  · have apart : ¬ Word.Within (s.r1 + 4) 4 (s.r1 + BitVec.ofNat 32 j) := by
      unfold Word.Within
      bv_omega
    rw [mem_pair, Memory.setWord_outside _ _ apart]
    exact Memory.setWord_word_inside _ _ _ low
  · obtain ⟨k, rfl⟩ := Nat.exists_eq_add_of_le (Nat.le_of_not_lt low)
    have high : k < 4 := by omega
    rw [mem_pair, ← Word.add_ofNat_add_ofNat, ← Word.add_ofNat_add_ofNat]
    exact (Memory.setWord_inside _ _ _ high).trans
      (Memory.byte_word _ _ high)

theorem pair_copies (s : CopyLoop) {k : Nat} (bound : 8 * k ≤ 2 ^ 32) :
    ForwardCopy s.mem (pair^[k] s).mem s.r1 s.r0 (fun i => 8 * (i / 8))
      (8 * k) := by
  induction k with
  | zero => exact .zero
  | succ k ih =>
      have prior := ih (by omega)
      rw [Function.iterate_succ_apply']
      refine prior.unit bound (fun a outside => ?_) ?_ ?_ ?_
      · rw [← r1_pair_iterate] at outside
        exact pair_outside _ outside
      · intro j inPair
        rw [← Word.add_ofNat_add_ofNat, ← Word.add_ofNat_add_ofNat,
          ← r0_pair_iterate, ← r1_pair_iterate]
        exact pair_inside _ inPair
      · intro j inPair
        omega
      · intro i earlier
        omega

end CopyLoop

/-! The rounds that a payload takes. -/

/-- The payload length rounded up to whole rounds, of which there is one at
least. -/
def copiedLength (n : Nat) : Nat := if n = 0 then 8 else (n + 7) / 8 * 8

def lastRound (n : Nat) : Nat := (n - 1) / 8

theorem copiedLength_eq (n : Nat) : copiedLength n = 8 * (lastRound n + 1) := by
  unfold copiedLength lastRound
  split <;> omega

theorem le_copiedLength (n : Nat) : n ≤ copiedLength n := by
  unfold copiedLength
  split <;> omega

theorem lt_lastRound_iff {j n : Nat} : j < lastRound n ↔ 8 * (j + 1) < n := by
  unfold lastRound
  omega

/-- No pointer of the loop wraps, and the target is below the source or beyond
the last byte that is read. -/
structure RelocationRanges (dst src : Word) (n : Nat) : Prop where
  source : src.toNat + copiedLength n < 2 ^ 32
  target : dst.toNat + copiedLength n ≤ 2 ^ 32
  apart : dst ≤ src ∨ src.toNat + copiedLength n ≤ dst.toNat

section Relocation

variable {dst src : Word} {n : Nat}

theorem copyLoop_goes_iff (noWrap : src.toNat + copiedLength n < 2 ^ 32)
    (s : CopyLoop) (start : s.r0 = src) {j : Nat} (bound : j ≤ lastRound n) :
    (CopyLoop.pair^[j + 1] s).r0 < src + BitVec.ofNat 32 n ↔
      j < lastRound n := by
  have total := copiedLength_eq n
  have whole := le_copiedLength n
  rw [CopyLoop.r0_pair_iterate, start, BitVec.lt_def,
    Word.toNat_add_ofNat (by omega), Word.toNat_add_ofNat (by omega),
    lt_lastRound_iff]
  omega

theorem copyLoop_val (mem : Memory)
    (noWrap : src.toNat + copiedLength n < 2 ^ 32) :
    (copyLoop mem src dst (src + BitVec.ofNat 32 n)).val =
      some (CopyLoop.pair^[lastRound n + 1] ⟨src, dst, mem⟩) := by
  have total := copiedLength_eq n
  refine (copyLoop_doWhile _).run_val_eq_some_iff.mpr
    ⟨lastRound n, by omega, fun j before => ?_, ?_, rfl⟩
  · exact (copyLoop_goes_iff noWrap _ rfl (Nat.le_of_lt before)).mpr before
  · rw [copyLoop_goes_iff noWrap _ rfl (Nat.le_refl _)]
    exact Nat.lt_irrefl _

theorem mem_reads_copyLoop (mem : Memory)
    (noWrap : src.toNat + copiedLength n < 2 ^ 32) {access : Access} :
    access ∈ (copyLoop mem src dst (src + BitVec.ofNat 32 n)).reads ↔
      ∃ j, j ≤ lastRound n ∧
        (access = .load (src + BitVec.ofNat 32 (8 * j)) ∨
          access = .load (src + BitVec.ofNat 32 (8 * j) + 4) ∨
          access = .store (dst + BitVec.ofNat 32 (8 * j)) ∨
          access = .store (dst + BitVec.ofNat 32 (8 * j) + 4)) := by
  have total := copiedLength_eq n
  rw [copyLoop, (copyLoop_doWhile _).mem_reads_run_iff]
  simp only [reads_copyLoopBody, CopyLoop.r0_pair_iterate,
    CopyLoop.r1_pair_iterate, List.mem_cons, List.not_mem_nil, or_false]
  refine exists_congr fun j => ?_
  constructor
  · rintro ⟨_, goes, here⟩
    refine ⟨?_, here⟩
    by_contra late
    have beyond := goes (lastRound n) (by omega)
    rw [← CopyLoop.r0_pair_iterate _ ⟨src, dst, mem⟩,
      copyLoop_goes_iff noWrap _ rfl (Nat.le_refl _)] at beyond
    exact Nat.lt_irrefl _ beyond
  · rintro ⟨bound, here⟩
    refine ⟨by omega, fun k before => ?_, here⟩
    rw [← CopyLoop.r0_pair_iterate _ ⟨src, dst, mem⟩,
      copyLoop_goes_iff noWrap _ rfl (by omega)]
    omega

theorem stores_copyLoop (mem : Memory) (ranges : RelocationRanges dst src n)
    {a : Word}
    (stored : .store a ∈
      (copyLoop mem src dst (src + BitVec.ofNat 32 n)).reads) :
    dst.toNat ≤ a.toNat ∧ a.toNat + 4 ≤ dst.toNat + copiedLength n := by
  have total := copiedLength_eq n
  have room := ranges.target
  obtain ⟨j, bound, here⟩ := (mem_reads_copyLoop mem ranges.source).mp stored
  simp only [reduceCtorEq, Access.store.injEq, false_or] at here
  rcases here with rfl | rfl
  · rw [Word.toNat_add_ofNat (by omega)]
    omega
  · rw [show (4 : Word) = BitVec.ofNat 32 4 from rfl,
      Word.add_ofNat_add_ofNat, Word.toNat_add_ofNat (by omega)]
    omega

/-- `ldm` and `stm` fault on addresses that are not aligned; the loop gives
them none. -/
theorem copyLoop_aligned (mem : Memory)
    (noWrap : src.toNat + copiedLength n < 2 ^ 32) (source : src.Aligned)
    (target : dst.Aligned) :
    ∀ access ∈ (copyLoop mem src dst (src + BitVec.ofNat 32 n)).reads,
      access.address.Aligned := by
  intro access member
  obtain ⟨j, _, here⟩ := (mem_reads_copyLoop mem noWrap).mp member
  have step : Word.Aligned (BitVec.ofNat 32 (8 * j)) := by
    rw [Word.Aligned, BitVec.toNat_ofNat]
    omega
  have four : (4 : Word).Aligned := by decide
  rcases here with rfl | rfl | rfl | rfl
  · exact source.add step
  · exact (source.add step).add four
  · exact target.add step
  · exact (target.add step).add four

/-- The last round may read and write beyond the payload, by less than a
round unless the payload is empty. -/
theorem copyLoop_relocates (mem : Memory) (dst src : Word) (n : Nat)
    (ranges : RelocationRanges dst src n) :
    ∃ s, (copyLoop mem src dst (src + BitVec.ofNat 32 n)).val = some s ∧
      (∀ i, i < n →
        s.mem (dst + BitVec.ofNat 32 i) = mem (src + BitVec.ofNat 32 i)) ∧
      (∀ a, .store a ∈
          (copyLoop mem src dst (src + BitVec.ofNat 32 n)).reads →
        dst.toNat ≤ a.toNat ∧ a.toNat + 4 ≤ dst.toNat + copiedLength n) ∧
      (src.Aligned → dst.Aligned → ∀ access ∈
          (copyLoop mem src dst (src + BitVec.ofNat 32 n)).reads,
        access.address.Aligned) ∧
      ∀ a, ¬ Word.Within dst (copiedLength n) a → s.mem a = mem a := by
  have total := copiedLength_eq n
  have small := ranges.source
  have copy := CopyLoop.pair_copies ⟨src, dst, mem⟩
    (k := lastRound n + 1) (by omega)
  rw [← total] at copy
  have starts (i : Nat) : 8 * (i / 8) ≤ i := Nat.mul_div_le i 8
  have intact := (copy.intact_iff starts).mpr
    (repeats_of_apart starts (Nat.le_of_lt small) ranges.apart)
  refine ⟨_, copyLoop_val mem small, fun i bound => ?_,
    fun a stored => stores_copyLoop mem ranges stored,
    copyLoop_aligned mem small, copy.outside⟩
  exact intact i (Nat.lt_of_lt_of_le bound (le_copiedLength n))

end Relocation

/-- A payload of 13 bytes, moved down by 4. -/
theorem copyLoop_relocates_down :
    ∃ s, (copyLoop (fun a => a.setWidth 8) 0x84 0x80 0x91).val = some s ∧
      s.mem (0x80 + BitVec.ofNat 32 12) = 0x90 := by
  obtain ⟨s, returned, intact, _⟩ := copyLoop_relocates (fun a => a.setWidth 8)
    0x80 0x84 13 ⟨by decide, by decide, .inl (by decide)⟩
  exact ⟨s, returned, intact 12 (by decide)⟩

namespace HeadImage

variable (head : HeadImage)

def payloadLength : Nat :=
  head.payloadDataEndOfs.toNat - head.payloadDataBeginOfs.toNat

end HeadImage

section Stage

variable {head : HeadImage} {start : Word}

theorem HeadImage.payloadEnd_eq (head : HeadImage) (start : Word) :
    head.payloadDataEndOfs + start =
      head.payloadDataBeginOfs + start +
        BitVec.ofNat 32 head.payloadLength := by
  have order := head.begin_le_end
  unfold HeadImage.payloadLength
  bv_omega

theorem headStart_val (cpuType : CpuType) (mem : Memory) (arch : Word) :
    (headStart head cpuType mem start arch).val =
      (copyLoop mem (head.payloadDataBeginOfs + start) head.textBase
        (head.payloadDataBeginOfs + start +
          BitVec.ofNat 32 head.payloadLength)).val.map fun s =>
        { pc := head.textBase, r0 := head.textBase, r1 := start, r2 := arch,
          mem := s.mem,
          log := watchdogResetup cpuType ++ [.invalidateIcacheAll] } := by
  have real : start + 8 - 8 = start := BitVec.add_sub_cancel ..
  rw [headStart, relocateCode, real, Traced.val_bind, head.payloadEnd_eq]
  rfl

/-- The first stage enters the second with the payload at the text base, and
passes on where it was loaded and the machine type. -/
theorem headStart_enters (cpuType : CpuType) (mem : Memory) (arch : Word)
    (ranges : RelocationRanges head.textBase
      (head.payloadDataBeginOfs + start) head.payloadLength) :
    ∃ entered, (headStart head cpuType mem start arch).val = some entered ∧
      entered.pc = head.textBase ∧ entered.r1 = start ∧ entered.r2 = arch ∧
      (∀ i, i < head.payloadLength →
        entered.mem (head.textBase + BitVec.ofNat 32 i) =
          mem (head.payloadDataBeginOfs + start + BitVec.ofNat 32 i)) ∧
      ∀ a, ¬ Word.Within head.textBase (copiedLength head.payloadLength) a →
        entered.mem a = mem a := by
  have small := ranges.source
  have copy := CopyLoop.pair_copies
    ⟨head.payloadDataBeginOfs + start, head.textBase, mem⟩
    (k := lastRound head.payloadLength + 1)
    (by rw [← copiedLength_eq]; omega)
  rw [← copiedLength_eq] at copy
  have starts (i : Nat) : 8 * (i / 8) ≤ i := Nat.mul_div_le i 8
  have intact := (copy.intact_iff starts).mpr
    (repeats_of_apart starts (Nat.le_of_lt small) ranges.apart)
  rw [headStart_val, copyLoop_val mem small]
  exact ⟨_, rfl, rfl, rfl, rfl, fun i bound =>
    intact i (Nat.lt_of_lt_of_le bound (le_copiedLength _)), copy.outside⟩

end Stage

end AuxLoader
