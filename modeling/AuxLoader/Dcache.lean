import AuxLoader.Cpu
import Mathlib.Data.List.Nodup
import Mathlib.Data.Nat.Log

namespace AuxLoader

open Data

/-! Which cache lines the maintenance by set and way comes to. -/

section Log2

theorem log2Loop_eq (rounds : Nat) (temp : Word) (log2n : Int)
    (enough : temp.toNat < 2 ^ rounds) :
    log2Loop rounds temp log2n =
      if temp = 0 then log2n else log2n + Nat.log 2 temp.toNat + 1 := by
  induction rounds generalizing temp log2n with
  | zero =>
      have empty : temp = 0 := by
        apply BitVec.eq_of_toNat_eq
        simpa using enough
      rw [if_pos empty, log2Loop]
  | succ rounds ih =>
      have half : (temp >>> 1).toNat = temp.toNat / 2 := by
        rw [BitVec.toNat_ushiftRight, Nat.shiftRight_eq_div_pow]
      rw [log2Loop]
      by_cases empty : temp = 0
      · rw [if_pos empty, if_neg (not_not_intro empty)]
      · rw [if_pos empty, if_neg empty, ih _ _ (by omega), half]
        by_cases last : temp >>> 1 = 0
        · have one : temp.toNat < 2 := by
            have gone : temp.toNat / 2 = 0 :=
              half.symm.trans (congrArg BitVec.toNat last)
            omega
          rw [if_pos last, Nat.log_of_lt one]
          simp
        · have more : 2 ≤ temp.toNat := by
            by_contra small
            refine last (BitVec.eq_of_toNat_eq (half.trans ?_))
            exact Nat.div_eq_of_lt (Nat.lt_of_not_le small)
          rw [if_neg last, Nat.log_of_one_lt_of_le (by decide) more]
          push_cast
          omega

theorem and_sub_one_eq_zero_iff {n : Word} (positive : n ≠ 0) :
    n &&& (n - 1) = 0 ↔ 2 ^ Nat.log 2 n.toNat = n.toNat := by
  have nonzero : n.toNat ≠ 0 := fun zero =>
    positive (BitVec.eq_of_toNat_eq zero)
  have same : n &&& (n - 1) = 0 ↔ n.toNat &&& (n.toNat - 1) = 0 := by
    rw [← BitVec.toNat_inj, BitVec.toNat_and]
    have less : (n - 1).toNat = n.toNat - 1 := by bv_omega
    rw [less]
    rfl
  rw [same, Nat.and_sub_one_eq_zero_iff_isPowerOfTwo nonzero]
  constructor
  · rintro ⟨k, power⟩
    rw [power, Nat.log_pow (by decide)]
  · intro power
    exact ⟨_, power.symm⟩

theorem clog_eq {n : Nat} (positive : n ≠ 0) :
    Nat.clog 2 n = if 2 ^ Nat.log 2 n = n then Nat.log 2 n
      else Nat.log 2 n + 1 := by
  split
  next power =>
    rw [← power, Nat.clog_pow _ _ (by decide), Nat.log_pow (by decide)]
  next between =>
    have low := Nat.pow_log_le_self 2 positive
    have high := Nat.lt_pow_succ_log_self (b := 2) (by decide) n
    apply le_antisymm
    · exact Nat.clog_le_of_le_pow (Nat.le_of_lt high)
    · rw [Nat.add_one_le_iff, Nat.lt_clog_iff_pow_lt (by decide)]
      exact lt_of_le_of_ne low between

theorem log2NRoundUp_eq {n : Word} (positive : n ≠ 0) :
    log2NRoundUp n = Nat.clog 2 n.toNat := by
  have nonzero : n.toNat ≠ 0 := fun zero =>
    positive (BitVec.eq_of_toNat_eq zero)
  have loop := log2Loop_eq 33 n (-1) (by omega)
  rw [if_neg positive] at loop
  rw [log2NRoundUp, loop, clog_eq nonzero]
  by_cases power : 2 ^ Nat.log 2 n.toNat = n.toNat
  · rw [if_pos power, if_neg (by
      rw [not_not]
      exact (and_sub_one_eq_zero_iff positive).mpr power)]
    omega
  · rw [if_neg power, if_pos (by
      rw [ne_eq, and_sub_one_eq_zero_iff positive]
      exact power)]
    push_cast
    omega

end Log2

/-! The geometry that the identification registers report. -/

structure CacheLine where
  level : Nat
  set : Nat
  way : Nat
  deriving DecidableEq

namespace Platform

variable (platform : Platform)

def cacheType (level : Nat) : Nat := platform.clidr.toNat / 2 ^ (3 * level) % 8

/-- The level has a data-only, a split or a unified cache. -/
def HasDcache (level : Nat) : Prop :=
  platform.cacheType level = 2 ∨ platform.cacheType level = 3 ∨
    platform.cacheType level = 4

instance (level : Nat) : Decidable (platform.HasDcache level) :=
  inferInstanceAs (Decidable (_ ∨ _))

/-- The size register, as it reads when the level is selected. -/
def levelCcsidr (level : Nat) : Nat :=
  (platform.ccsidr
    (BitVec.ofNat 32 level <<< 1 ||| armv7CsselrIndDataUnified)).toNat

def numSets (level : Nat) : Nat :=
  platform.levelCcsidr level / 2 ^ 13 % 2 ^ 15 + 1

def numWays (level : Nat) : Nat :=
  platform.levelCcsidr level / 2 ^ 3 % 2 ^ 10 + 1

def log2LineLen (level : Nat) : Nat := platform.levelCcsidr level % 8 + 4

def setBits (level : Nat) : Nat := Nat.clog 2 (platform.numSets level)

def wayBits (level : Nat) : Nat := Nat.clog 2 (platform.numWays level)

/-- A set/way operand has room for what the level needs. -/
def FitsOperand (level : Nat) : Prop :=
  platform.setBits level + platform.log2LineLen level +
    platform.wayBits level ≤ 32

instance (level : Nat) : Decidable (platform.FitsOperand level) :=
  inferInstanceAs (Decidable (_ ≤ _))

/-- The line belongs to a data cache. -/
structure HasLine (line : CacheLine) : Prop where
  level : line.level < 7
  dcache : platform.HasDcache line.level
  set : line.set < platform.numSets line.level
  way : line.way < platform.numWays line.level

/-- The operand consists of a level, a set and a way field that do not overlap
and that name the line. -/
structure Addresses (operand : Word) (line : CacheLine) : Prop where
  apart : 1 + 3 ≤ platform.log2LineLen line.level ∧
    platform.log2LineLen line.level + platform.setBits line.level ≤
      32 - platform.wayBits line.level
  level : operand.toNat / 2 % 2 ^ 3 = line.level
  set : operand.toNat / 2 ^ platform.log2LineLen line.level %
    2 ^ platform.setBits line.level = line.set
  way : operand.toNat / 2 ^ (32 - platform.wayBits line.level) = line.way
  nothingElse : operand.toNat = 2 * line.level +
    2 ^ platform.log2LineLen line.level * line.set +
    2 ^ (32 - platform.wayBits line.level) * line.way

end Platform

/-! One operand and the line it names. -/

section Operand

theorem toNat_shiftLeft_of_fits {value bits : Nat} (shift : Nat)
    (small : value < 2 ^ bits) (fits : shift + bits ≤ 32) :
    (BitVec.ofNat 32 value <<< shift).toNat = 2 ^ shift * value := by
  have whole : 2 ^ shift * value < 2 ^ 32 :=
    calc
      2 ^ shift * value < 2 ^ shift * 2 ^ bits :=
        Nat.mul_lt_mul_of_pos_left small (Nat.two_pow_pos shift)
      _ = 2 ^ (shift + bits) := (Nat.pow_add 2 shift bits).symm
      _ ≤ 2 ^ 32 := Nat.pow_le_pow_right (by decide) fits
  have less : value < 2 ^ 32 :=
    Nat.lt_of_lt_of_le small (Nat.pow_le_pow_right (by decide) (by omega))
  rw [BitVec.toNat_shiftLeft, BitVec.toNat_ofNat, Nat.mod_eq_of_lt less,
    Nat.shiftLeft_eq, Nat.mul_comm, Nat.mod_eq_of_lt whole]

theorem or_eq_add {low : Nat} (high : Nat) {shift : Nat}
    (small : low < 2 ^ shift) :
    low ||| 2 ^ shift * high = low + 2 ^ shift * high := by
  rw [Nat.or_comm, ← Nat.two_pow_add_eq_or_of_lt small, Nat.add_comm]

theorem fields_lt {low high shift bits : Nat} (lowSmall : low < 2 ^ shift)
    (highSmall : high < 2 ^ bits) :
    low + 2 ^ shift * high < 2 ^ (shift + bits) :=
  calc
    low + 2 ^ shift * high < 2 ^ shift * (high + 1) := by
      rw [Nat.mul_succ]
      omega
    _ ≤ 2 ^ shift * 2 ^ bits := Nat.mul_le_mul_left _ highSmall
    _ = 2 ^ (shift + bits) := (Nat.pow_add 2 shift bits).symm

theorem fields_div {low : Nat} (high : Nat) {shift : Nat}
    (small : low < 2 ^ shift) : (low + 2 ^ shift * high) / 2 ^ shift = high := by
  rw [Nat.add_mul_div_left _ _ (Nat.two_pow_pos shift),
    Nat.div_eq_of_lt small, Nat.zero_add]

variable {platform : Platform} {line : CacheLine}

theorem wayBits_le (level : Nat) : platform.wayBits level ≤ 10 := by
  apply Nat.clog_le_of_le_pow
  unfold Platform.numWays
  omega

theorem four_le_log2LineLen (level : Nat) : 4 ≤ platform.log2LineLen level :=
  Nat.le_add_left _ _

theorem Platform.HasLine.set_lt (bounds : platform.HasLine line) :
    line.set < 2 ^ platform.setBits line.level :=
  Nat.lt_of_lt_of_le bounds.set (Nat.le_pow_clog (by decide) _)

theorem Platform.HasLine.way_lt (bounds : platform.HasLine line) :
    line.way < 2 ^ platform.wayBits line.level :=
  Nat.lt_of_lt_of_le bounds.way (Nat.le_pow_clog (by decide) _)

theorem Platform.HasLine.level_lt (bounds : platform.HasLine line) :
    2 * line.level < 2 ^ platform.log2LineLen line.level := by
  have level := bounds.level
  calc
    2 * line.level < 2 ^ 4 := by omega
    _ ≤ 2 ^ platform.log2LineLen line.level :=
      Nat.pow_le_pow_right (by decide) (four_le_log2LineLen line.level)

/-- The operand that the loops compute for a line. -/
def Platform.operand (platform : Platform) (line : CacheLine) : Word :=
  setwayWord (BitVec.ofNat 32 line.level) line.set line.way
    (BitVec.ofNat 32 (32 - platform.wayBits line.level))
    (BitVec.ofNat 32 (platform.log2LineLen line.level))

theorem Platform.HasLine.low_lt (bounds : platform.HasLine line)
    (fits : platform.FitsOperand line.level) :
    2 * line.level + 2 ^ platform.log2LineLen line.level * line.set <
      2 ^ (32 - platform.wayBits line.level) := by
  have ways := @wayBits_le platform line.level
  unfold Platform.FitsOperand at fits
  exact Nat.lt_of_lt_of_le (fields_lt bounds.level_lt bounds.set_lt)
    (Nat.pow_le_pow_right (by decide) (by omega))

theorem Platform.HasLine.operand_toNat (bounds : platform.HasLine line)
    (fits : platform.FitsOperand line.level) :
    (platform.operand line).toNat = 2 * line.level +
      2 ^ platform.log2LineLen line.level * line.set +
      2 ^ (32 - platform.wayBits line.level) * line.way := by
  have ways := @wayBits_le platform line.level
  have room := fits
  unfold Platform.FitsOperand at room
  have levelSmall : line.level < 2 ^ 3 := Nat.lt_trans bounds.level (by decide)
  have levelField := toNat_shiftLeft_of_fits 1 levelSmall (by decide)
  have setField := toNat_shiftLeft_of_fits (platform.log2LineLen line.level)
    bounds.set_lt (by omega)
  have wayField := toNat_shiftLeft_of_fits (32 - platform.wayBits line.level)
    bounds.way_lt (by omega)
  have setShift : (BitVec.ofNat 32 (platform.log2LineLen line.level)).toNat =
      platform.log2LineLen line.level := by
    rw [BitVec.toNat_ofNat, Nat.mod_eq_of_lt (by omega)]
  have wayShift : (BitVec.ofNat 32 (32 - platform.wayBits line.level)).toNat =
      32 - platform.wayBits line.level := by
    rw [BitVec.toNat_ofNat, Nat.mod_eq_of_lt (by omega)]
  rw [Platform.operand, setwayWord, setShift, wayShift, BitVec.toNat_or,
    BitVec.toNat_or, levelField, setField, wayField, Nat.pow_one,
    or_eq_add _ bounds.level_lt, or_eq_add _ (bounds.low_lt fits)]

theorem Platform.HasLine.addresses (bounds : platform.HasLine line)
    (fits : platform.FitsOperand line.level) :
    platform.Addresses (platform.operand line) line := by
  have value := bounds.operand_toNat fits
  have ways := @wayBits_le platform line.level
  have offset := @four_le_log2LineLen platform line.level
  have room := fits
  unfold Platform.FitsOperand at room
  obtain ⟨gap, wayPlace⟩ := Nat.exists_eq_add_of_le
    (show platform.log2LineLen line.level + platform.setBits line.level ≤
      32 - platform.wayBits line.level by omega)
  obtain ⟨rest, setPlace⟩ := Nat.exists_eq_add_of_le offset
  refine ⟨⟨offset, by omega⟩, ?_, ?_, ?_, value⟩
  · -- Both higher fields are multiples of 16.
    have level := bounds.level
    rw [value, wayPlace, setPlace]
    simp only [Nat.pow_add, Nat.mul_assoc]
    omega
  · -- Above the line offset, the way is a multiple of the set field's size.
    rw [value, wayPlace, Nat.pow_add, Nat.pow_add, Nat.mul_assoc, Nat.mul_assoc,
      Nat.add_assoc, ← Nat.mul_add, fields_div _ bounds.level_lt,
      Nat.add_mul_mod_self_left, Nat.mod_eq_of_lt bounds.set_lt]
  · rw [value, fields_div _ (bounds.low_lt fits)]

end Operand

/-! The operands of a whole run. -/

def Machine.issue (operation : DcacheOp) (operands : List Word) (m : Machine) :
    Machine :=
  { m with log := m.log ++ operands.map (.dcacheSetway operation) }

section Run

variable {platform : Platform}

theorem issue_foldl {α : Type} (operation : DcacheOp) (operands : α → List Word)
    (items : List α) (m : Machine) :
    items.foldl (fun m item => m.issue operation (operands item)) m =
      m.issue operation (items.flatMap operands) := by
  induction items generalizing m with
  | nil => simp [Machine.issue]
  | cons item rest ih =>
      rw [List.foldl_cons, ih]
      simp [Machine.issue]

/-- The lines of a level in the order of the loops, which count down. -/
def levelLines (platform : Platform) (level : Nat) : List CacheLine :=
  (List.range (platform.numWays level)).reverse.flatMap fun way =>
    (List.range (platform.numSets level)).reverse.map fun set =>
      ⟨level, set, way⟩

def dcacheLines (platform : Platform) : List CacheLine :=
  ((List.range 7).filter fun level => platform.HasDcache level).flatMap
    (levelLines platform)

theorem bitField_toNat {value mask : Word} (shift width : Nat)
    (field : mask.toNat / 2 ^ shift = 2 ^ width - 1) :
    ((value &&& mask) >>> shift).toNat =
      value.toNat / 2 ^ shift % 2 ^ width := by
  rw [BitVec.toNat_ushiftRight, BitVec.toNat_and, Nat.shiftRight_and_distrib,
    Nat.shiftRight_eq_div_pow, Nat.shiftRight_eq_div_pow, field,
    Nat.and_two_pow_sub_one_eq_mod]

theorem dcacheLevelSetway_eq (operation : DcacheOp)
    (level numSets numWays wayShift log2LineLen : Word) (m : Machine) :
    dcacheLevelSetway operation level numSets numWays wayShift log2LineLen m =
      m.issue operation ((List.range numWays.toNat).reverse.flatMap fun way =>
        (List.range numSets.toNat).reverse.map fun set =>
          setwayWord level set way wayShift log2LineLen) := by
  simp only [List.map_eq_flatMap, ← issue_foldl]
  rfl

theorem v7MaintDcacheLevelSetway_eq (level : Nat) (operation : DcacheOp)
    (m : Machine) :
    v7MaintDcacheLevelSetway platform (BitVec.ofNat 32 level) operation m =
      m.issue operation ((levelLines platform level).map platform.operand) := by
  let ccsidr := platform.ccsidr
    (BitVec.ofNat 32 level <<< 1 ||| armv7CsselrIndDataUnified)
  have next (field bits : Nat) (small : bits < 32) :
      (field % 2 ^ bits + (1 : Word).toNat) % 2 ^ 32 = field % 2 ^ bits + 1 := by
    apply Nat.mod_eq_of_lt
    have below := Nat.mod_lt field (Nat.two_pow_pos bits)
    have room : 2 ^ bits < 2 ^ 32 := Nat.pow_lt_pow_right (by decide) small
    exact Nat.lt_of_le_of_lt below room
  have ways : ((ccsidr &&& (0x3FF <<< 3)) >>> 3 + 1).toNat =
      platform.numWays level := by
    rw [BitVec.toNat_add, bitField_toNat 3 10 (by decide), next _ _ (by decide)]
    rfl
  have sets : ((ccsidr &&& (0x7FFF <<< 13)) >>> 13 + 1).toNat =
      platform.numSets level := by
    rw [BitVec.toNat_add, bitField_toNat 13 15 (by decide),
      next _ _ (by decide)]
    rfl
  have lineLen : (ccsidr &&& 0x7) + 2 + 2 =
      BitVec.ofNat 32 (platform.log2LineLen level) := by
    have field : ccsidr &&& 0x7 = BitVec.ofNat 32 (ccsidr.toNat % 8) := by
      apply BitVec.eq_of_toNat_eq
      rw [BitVec.toNat_and, BitVec.toNat_ofNat, Nat.mod_eq_of_lt (by omega)]
      exact Nat.and_two_pow_sub_one_eq_mod _ 3
    rw [field, BitVec.add_assoc]
    exact (BitVec.ofNat_add _ 4).symm
  have wayShift : 32 - BitVec.ofInt 32 (log2NRoundUp
      ((ccsidr &&& (0x3FF <<< 3)) >>> 3 + 1)) =
        BitVec.ofNat 32 (32 - platform.wayBits level) := by
    have small := @wayBits_le platform level
    have nonzero : (ccsidr &&& (0x3FF <<< 3)) >>> 3 + 1 ≠ (0 : Word) := by
      intro zero
      have positive := congrArg BitVec.toNat zero
      rw [ways] at positive
      exact absurd positive (Nat.succ_ne_zero _)
    rw [log2NRoundUp_eq nonzero, ways, BitVec.ofInt_natCast]
    exact BitVec.ofNat_sub_ofNat_of_le 32 (platform.wayBits level) (by omega)
      (by omega)
  have level_eq : v7MaintDcacheLevelSetway platform (BitVec.ofNat 32 level)
      operation m = dcacheLevelSetway operation (BitVec.ofNat 32 level)
        ((ccsidr &&& (0x7FFF <<< 13)) >>> 13 + 1)
        ((ccsidr &&& (0x3FF <<< 3)) >>> 3 + 1)
        (32 - BitVec.ofInt 32 (log2NRoundUp
          ((ccsidr &&& (0x3FF <<< 3)) >>> 3 + 1)))
        ((ccsidr &&& 0x7) + 2 + 2) m := by
    cases operation <;> rfl
  rw [level_eq, wayShift, lineLen, dcacheLevelSetway_eq, ways, sets, levelLines,
    List.map_flatMap]
  simp only [List.map_map]
  rfl

theorem hasDcache_iff {level : Nat} :
    hasDcache ((platform.clidr >>> (3 * level)) &&& 0x7) = true ↔
      platform.HasDcache level := by
  have field : ((platform.clidr >>> (3 * level)) &&& 0x7).toNat =
      platform.cacheType level := by
    rw [BitVec.toNat_and, BitVec.toNat_ushiftRight, Nat.shiftRight_eq_div_pow]
    exact Nat.and_two_pow_sub_one_eq_mod _ 3
  simp only [hasDcache, Platform.HasDcache, ← field, Bool.or_eq_true,
    decide_eq_true_eq, ← BitVec.toNat_inj, or_assoc]
  rfl

theorem v7MaintDcacheAll_eq (operation : DcacheOp) (m : Machine) :
    v7MaintDcacheAll platform operation m =
      m.issue operation ((dcacheLines platform).map platform.operand) := by
  rw [dcacheLines, List.map_flatMap, ← issue_foldl, List.foldl_filter]
  simp only [v7MaintDcacheAll, hasDcache_iff, v7MaintDcacheLevelSetway_eq,
    decide_eq_true_eq]

theorem mem_dcacheLines {line : CacheLine} :
    line ∈ dcacheLines platform ↔ platform.HasLine line := by
  simp only [dcacheLines, levelLines, List.mem_flatMap, List.mem_filter,
    List.mem_range, List.mem_reverse, List.mem_map, decide_eq_true_eq]
  constructor
  · rintro ⟨level, ⟨small, dcache⟩, way, wayBound, set, setBound, rfl⟩
    exact ⟨small, dcache, setBound, wayBound⟩
  · intro bounds
    exact ⟨line.level, ⟨bounds.level, bounds.dcache⟩, line.way, bounds.way,
      line.set, bounds.set, rfl⟩

theorem levelLines_nodup (level : Nat) : (levelLines platform level).Nodup := by
  rw [levelLines, List.nodup_flatMap]
  constructor
  · intro way _
    apply List.Nodup.map _ (List.nodup_reverse.mpr List.nodup_range)
    intro set other same
    exact congrArg CacheLine.set same
  · apply (List.nodup_reverse.mpr List.nodup_range).imp
    intro way other different line first second
    obtain ⟨_, _, rfl⟩ := List.mem_map.mp first
    obtain ⟨_, _, same⟩ := List.mem_map.mp second
    exact different (congrArg CacheLine.way same).symm

theorem dcacheLines_nodup : (dcacheLines platform).Nodup := by
  rw [dcacheLines, List.nodup_flatMap]
  refine ⟨fun level _ => levelLines_nodup level, ?_⟩
  apply (List.nodup_range.filter _).imp
  intro level other different line first second
  simp only [levelLines, List.mem_flatMap, List.mem_map] at first second
  obtain ⟨_, _, _, _, rfl⟩ := first
  obtain ⟨_, _, _, _, same⟩ := second
  exact different (congrArg CacheLine.level same).symm

end Run

/-- The operands name every line of every data cache, once each, and nothing
else. -/
structure OnceEach (platform : Platform) (operands : List Word) : Prop where
  nodup : operands.Nodup
  named : ∀ operand ∈ operands,
    ∃ line, platform.HasLine line ∧ platform.Addresses operand line
  covered : ∀ line, platform.HasLine line →
    ∃! operand, operand ∈ operands ∧ platform.Addresses operand line

section Once

variable {platform : Platform}

theorem addresses_unique {first second : Word} {line : CacheLine}
    (one : platform.Addresses first line)
    (other : platform.Addresses second line) : first = second :=
  BitVec.eq_of_toNat_eq (one.nothingElse.trans other.nothingElse.symm)

/-- The level field is the same for every geometry, and the level gives the
other two. -/
theorem line_unique {operand : Word} {line other : CacheLine}
    (one : platform.Addresses operand line)
    (same : platform.Addresses operand other) : line = other := by
  obtain ⟨level, set, way⟩ := line
  obtain ⟨level', set', way'⟩ := other
  have levels : level = level' := one.level.symm.trans same.level
  subst levels
  have sets : set = set' := one.set.symm.trans same.set
  have ways : way = way' := one.way.symm.trans same.way
  rw [sets, ways]

theorem onceEach_dcacheLines
    (fits : ∀ level, level < 7 → platform.HasDcache level →
      platform.FitsOperand level) :
    OnceEach platform ((dcacheLines platform).map platform.operand) := by
  have addresses (line : CacheLine) (bounds : platform.HasLine line) :=
    bounds.addresses (fits line.level bounds.level bounds.dcache)
  refine ⟨?_, ?_, ?_⟩
  · apply List.Nodup.map_on _ dcacheLines_nodup
    intro line first other second same
    have one := addresses line (mem_dcacheLines.mp first)
    rw [same] at one
    exact line_unique one (addresses other (mem_dcacheLines.mp second))
  · intro operand member
    obtain ⟨line, listed, rfl⟩ := List.mem_map.mp member
    have bounds := mem_dcacheLines.mp listed
    exact ⟨line, bounds, addresses line bounds⟩
  · intro line bounds
    refine ⟨platform.operand line, ⟨?_, addresses line bounds⟩, ?_⟩
    · exact List.mem_map_of_mem (mem_dcacheLines.mpr bounds)
    · intro operand found
      exact addresses_unique found.2 (addresses line bounds)

end Once

/-- Maintenance of all data caches issues one operation for each line. -/
theorem v7MaintDcacheAll_onceEach (platform : Platform) (operation : DcacheOp)
    (m : Machine)
    (fits : ∀ level, level < 7 → platform.HasDcache level →
      platform.FitsOperand level) :
    (∀ n : Word, n ≠ 0 → log2NRoundUp n = Nat.clog 2 n.toNat) ∧
      ∃ operands, v7MaintDcacheAll platform operation m =
          m.issue operation operands ∧
        OnceEach platform operands :=
  ⟨fun _ positive => log2NRoundUp_eq positive, _,
    v7MaintDcacheAll_eq operation m, onceEach_dcacheLines fits⟩

/-- What the cores of an IPQ-4XXX report: 32 KB of data cache in 4 ways of 128
sets at level 1, a unified cache of 256 KB in 8 ways of 512 sets at level 2. -/
def cortexA7 (layout : Layout) : Platform where
  toLayout := layout
  cpuType := .ipq4xxx
  clidr := 0x0a200023
  ccsidr := fun csselr => if csselr = 0 then 0x700fe01a else 0x703fe03a
  l2esr := 0

theorem v7MaintDcacheAll_onceEach_cortexA7 :
    (∀ n : Word, n ≠ 0 → log2NRoundUp n = Nat.clog 2 n.toNat) ∧
      ∃ operands, v7MaintDcacheAll (cortexA7 (linkedLayout 72 (by decide)))
          .cleanInvalAll (.boot (fun _ => 0) 0) =
            Machine.issue .cleanInvalAll operands (.boot (fun _ => 0) 0) ∧
        OnceEach (cortexA7 (linkedLayout 72 (by decide))) operands :=
  v7MaintDcacheAll_onceEach _ _ _ (by decide)

end AuxLoader
