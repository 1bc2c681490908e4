import Mathlib.Data.List.Basic
import Mathlib.Tactic.IntervalCases
import AuxLoader.Data.Traced

namespace AuxLoader.Data

/-! A flat byte memory addressed by 32-bit words. Address arithmetic wraps. -/

abbrev Byte := BitVec 8

abbrev Word := BitVec 32

namespace Word

/-- The word with the given bytes, least significant first. -/
def pack (b₀ b₁ b₂ b₃ : Byte) : Word :=
  b₀.setWidth 32 ||| b₁.setWidth 32 <<< 8 ||| b₂.setWidth 32 <<< 16 |||
    b₃.setWidth 32 <<< 24

/-- Byte `i` of a word, least significant first. -/
def byte (word : Word) (i : Nat) : Byte :=
  (word >>> (8 * i)).setWidth 8

theorem getLsbD_pack (b₀ b₁ b₂ b₃ : Byte) (i : Nat) :
    (pack b₀ b₁ b₂ b₃).getLsbD i =
      if i < 8 then b₀.getLsbD i
      else if i < 16 then b₁.getLsbD (i - 8)
      else if i < 24 then b₂.getLsbD (i - 16)
      else b₃.getLsbD (i - 24) := by
  have above {b : Byte} {k : Nat} (high : 8 ≤ k) : b.getLsbD k = false :=
    BitVec.getLsbD_of_ge b k high
  simp only [pack, BitVec.getLsbD_or, BitVec.getLsbD_shiftLeft,
    BitVec.getLsbD_setWidth]
  have narrow {b : Byte} {k : Nat} :
      (decide (k < 32) && b.getLsbD k) = b.getLsbD k := by
    by_cases low : k < 8
    · simp [show k < 32 by omega]
    · simp [above (Nat.le_of_not_lt low)]
  simp only [narrow]
  split_ifs with first second third
  · simp [first, show i < 32 by omega, show i < 16 by omega,
      show i < 24 by omega]
  · simp [first, second, show i < 32 by omega, show i < 24 by omega,
      above (Nat.le_of_not_lt first)]
  · simp [first, second, third, show i < 32 by omega,
      above (Nat.le_of_not_lt first), above (show 8 ≤ i - 8 by omega)]
  · by_cases inside : i < 32
    · simp [first, second, third, inside, above (Nat.le_of_not_lt first),
        above (show 8 ≤ i - 8 by omega), above (show 8 ≤ i - 16 by omega)]
    · simp [inside, above (Nat.le_of_not_lt first),
        above (show 8 ≤ i - 24 by omega)]

theorem getLsbD_byte (word : Word) (k i : Nat) :
    (word.byte k).getLsbD i = (decide (i < 8) && word.getLsbD (8 * k + i)) := by
  rw [byte, BitVec.getLsbD_setWidth, BitVec.getLsbD_ushiftRight]

@[simp] theorem pack_byte (word : Word) :
    pack (word.byte 0) (word.byte 1) (word.byte 2) (word.byte 3) = word := by
  apply BitVec.eq_of_getLsbD_eq
  intro i bound
  simp only [getLsbD_pack, getLsbD_byte]
  split_ifs with first second third
  · simp [first]
  · simp [show i - 8 < 8 by omega, show 8 + (i - 8) = i by omega]
  · simp [show i - 16 < 8 by omega, show 16 + (i - 16) = i by omega]
  · simp [show i - 24 < 8 by omega, show 24 + (i - 24) = i by omega]

@[simp] theorem byte_zero_pack (b₀ b₁ b₂ b₃ : Byte) :
    (pack b₀ b₁ b₂ b₃).byte 0 = b₀ := by
  apply BitVec.eq_of_getLsbD_eq
  intro i bound
  rw [getLsbD_byte, getLsbD_pack, if_pos (by omega)]
  simp [bound]

@[simp] theorem byte_one_pack (b₀ b₁ b₂ b₃ : Byte) :
    (pack b₀ b₁ b₂ b₃).byte 1 = b₁ := by
  apply BitVec.eq_of_getLsbD_eq
  intro i bound
  rw [getLsbD_byte, getLsbD_pack, if_neg (by omega),
    if_pos (by omega)]
  simp [bound]

@[simp] theorem byte_two_pack (b₀ b₁ b₂ b₃ : Byte) :
    (pack b₀ b₁ b₂ b₃).byte 2 = b₂ := by
  apply BitVec.eq_of_getLsbD_eq
  intro i bound
  rw [getLsbD_byte, getLsbD_pack, if_neg (by omega),
    if_neg (by omega), if_pos (by omega)]
  simp [bound]

@[simp] theorem byte_three_pack (b₀ b₁ b₂ b₃ : Byte) :
    (pack b₀ b₁ b₂ b₃).byte 3 = b₃ := by
  apply BitVec.eq_of_getLsbD_eq
  intro i bound
  rw [getLsbD_byte, getLsbD_pack, if_neg (by omega),
    if_neg (by omega), if_neg (by omega)]
  simp [bound]

theorem ext_byte {first second : Word} (zero : first.byte 0 = second.byte 0)
    (one : first.byte 1 = second.byte 1) (two : first.byte 2 = second.byte 2)
    (three : first.byte 3 = second.byte 3) : first = second := by
  rw [← pack_byte first, ← pack_byte second, zero, one, two, three]

@[simp] theorem byte_or (first second : Word) (k : Nat) :
    byte (first ||| second) k = first.byte k ||| second.byte k := by
  rw [byte, BitVec.ushiftRight_or_distrib, BitVec.setWidth_or]
  rfl

@[simp] theorem byte_and (first second : Word) (k : Nat) :
    byte (first &&& second) k = first.byte k &&& second.byte k := by
  rw [byte, BitVec.ushiftRight_and_distrib, BitVec.setWidth_and]
  rfl

@[simp] theorem byte_zero (k : Nat) : byte (0#32) k = 0 := by simp [byte]

theorem byte_zero_shiftLeft (word : Word) : byte (word <<< 8) 0 = 0 := by
  apply BitVec.eq_of_getLsbD_eq
  intro i bound
  rw [getLsbD_byte, BitVec.getLsbD_shiftLeft]
  simp [bound]

theorem byte_shiftLeft (word : Word) {k : Nat} (bound : k < 3) :
    byte (word <<< 8) (k + 1) = word.byte k := by
  apply BitVec.eq_of_getLsbD_eq
  intro i inside
  rw [getLsbD_byte, getLsbD_byte, BitVec.getLsbD_shiftLeft]
  simp [show 8 * (k + 1) + i < 32 by omega,
    show ¬ 8 * (k + 1) + i < 8 by omega,
    show 8 * (k + 1) + i - 8 = 8 * k + i by omega]

theorem byte_shiftRight (word : Word) (k : Nat) :
    byte (word >>> 8) k = word.byte (k + 1) := by
  apply BitVec.eq_of_getLsbD_eq
  intro i inside
  rw [getLsbD_byte, getLsbD_byte, BitVec.getLsbD_ushiftRight,
    show 8 + (8 * k + i) = 8 * (k + 1) + i by omega]

theorem pack_shiftLeft (b₀ b₁ b₂ b₃ : Byte) :
    pack b₀ b₁ b₂ b₃ <<< 8 = pack 0 b₀ b₁ b₂ := by
  apply ext_byte
  · rw [byte_zero_shiftLeft, byte_zero_pack]
  · rw [byte_shiftLeft _ (show 0 < 3 by decide), byte_zero_pack, byte_one_pack]
  · rw [byte_shiftLeft _ (show 1 < 3 by decide), byte_one_pack, byte_two_pack]
  · rw [byte_shiftLeft _ (show 2 < 3 by decide), byte_two_pack, byte_three_pack]

theorem pack_shiftRight (b₀ b₁ b₂ b₃ : Byte) :
    pack b₀ b₁ b₂ b₃ >>> 8 = pack b₁ b₂ b₃ 0 := by
  have top (word : Word) : word.byte 4 = 0 := by
    apply BitVec.eq_of_getLsbD_eq
    intro i bound
    simp [getLsbD_byte]
  apply ext_byte
  · rw [byte_shiftRight, byte_one_pack, byte_zero_pack]
  · rw [byte_shiftRight, byte_two_pack, byte_one_pack]
  · rw [byte_shiftRight, byte_three_pack, byte_two_pack]
  · rw [byte_shiftRight, top, byte_three_pack]

theorem pack_or_low (r₁ r₂ r₃ b₀ b₁ b₂ b₃ : Byte) :
    pack 0 r₁ r₂ r₃ ||| (pack b₀ b₁ b₂ b₃ &&& 0xFF) = pack b₀ r₁ r₂ r₃ := by
  have low : (0xFF : Word) = pack 0xFF 0 0 0 := by decide
  have ones : b₀ &&& 0xFF = b₀ := BitVec.and_allOnes
  rw [low]
  apply ext_byte
  · simpa using ones
  · simp
  · simp
  · simp

theorem setWidth_eq_pack (b : Byte) : b.setWidth 32 = pack b 0 0 0 := by
  simp [pack]

theorem add_eq_pack (b₀ b₁ b₂ b₃ : Byte) :
    b₀.setWidth 32 + b₁.setWidth 32 <<< 8 + b₂.setWidth 32 <<< 16 +
      b₃.setWidth 32 <<< 24 = pack b₀ b₁ b₂ b₃ := by
  have second : b₁.setWidth 32 <<< 8 = pack 0 b₁ 0 0 := by
    rw [setWidth_eq_pack, pack_shiftLeft]
  have third : b₂.setWidth 32 <<< 16 = pack 0 0 b₂ 0 := by
    rw [setWidth_eq_pack, show 16 = 8 + 8 from rfl, BitVec.shiftLeft_add,
      pack_shiftLeft, pack_shiftLeft]
  have fourth : b₃.setWidth 32 <<< 24 = pack 0 0 0 b₃ := by
    rw [setWidth_eq_pack, show 24 = 8 + (8 + 8) from rfl,
      BitVec.shiftLeft_add, BitVec.shiftLeft_add, pack_shiftLeft,
      pack_shiftLeft, pack_shiftLeft]
  have two : b₀.setWidth 32 &&& b₁.setWidth 32 <<< 8 = 0#32 := by
    rw [setWidth_eq_pack b₀, second]
    apply ext_byte <;> simp
  have three : (b₀.setWidth 32 ||| b₁.setWidth 32 <<< 8) &&&
      b₂.setWidth 32 <<< 16 = 0#32 := by
    rw [setWidth_eq_pack b₀, second, third]
    apply ext_byte <;> simp
  have four : (b₀.setWidth 32 ||| b₁.setWidth 32 <<< 8 |||
      b₂.setWidth 32 <<< 16) &&& b₃.setWidth 32 <<< 24 = 0#32 := by
    rw [setWidth_eq_pack b₀, second, third, fourth]
    apply ext_byte <;> simp
  rw [BitVec.add_eq_or_of_and_eq_zero _ _ two,
    BitVec.add_eq_or_of_and_eq_zero _ _ three,
    BitVec.add_eq_or_of_and_eq_zero _ _ four, pack]

theorem toNat_and_not_three (word : Word) :
    (word &&& ~~~(3 : Word)).toNat = word.toNat / 4 * 4 := by
  have shifted : word &&& ~~~(3 : Word) = (word >>> 2) <<< 2 := by
    ext i hi
    interval_cases i <;> simp
  rw [shifted]
  simp only [BitVec.toNat_shiftLeft, BitVec.toNat_ushiftRight,
    Nat.shiftRight_eq_div_pow, Nat.shiftLeft_eq]
  omega

def Aligned (address : Word) : Prop := 4 ∣ address.toNat

instance (address : Word) : Decidable address.Aligned :=
  inferInstanceAs (Decidable (_ ∣ _))

/-- The address space is a whole number of words, so a sum that wraps stays
aligned. -/
theorem Aligned.add {first second : Word} (aligned : first.Aligned)
    (other : second.Aligned) : (first + second).Aligned := by
  unfold Aligned at *
  rw [BitVec.toNat_add]
  omega

theorem Aligned.sub {first second : Word} (aligned : first.Aligned)
    (other : second.Aligned) : (first - second).Aligned := by
  unfold Aligned at *
  rw [BitVec.toNat_sub]
  omega

theorem toNat_add_ofNat {base : Word} {i : Nat}
    (bound : base.toNat + i < 2 ^ 32) :
    (base + BitVec.ofNat 32 i).toNat = base.toNat + i := by
  bv_omega

theorem add_ofNat_add_ofNat (base : Word) (i j : Nat) :
    base + BitVec.ofNat 32 i + BitVec.ofNat 32 j =
      base + BitVec.ofNat 32 (i + j) := by
  rw [BitVec.add_assoc, ← BitVec.ofNat_add]

/-- A pointer that each round moves on by the same distance. -/
theorem iterate_add_ofNat {σ : Type*} {f : σ → σ} {pointer : σ → Word}
    {distance : Nat}
    (moves : ∀ s, pointer (f s) = pointer s + BitVec.ofNat 32 distance)
    (n : Nat) (s : σ) :
    pointer (f^[n] s) = pointer s + BitVec.ofNat 32 (distance * n) := by
  induction n with
  | zero => simp
  | succ n ih =>
      rw [Function.iterate_succ_apply', moves, ih]
      exact add_ofNat_add_ofNat (pointer s) (distance * n) distance

/-- The address lies among the `size` bytes from `base` up, counted round the
top of the address space. -/
def Within (base : Word) (size : Nat) (address : Word) : Prop :=
  (address - base).toNat < size

instance (base : Word) (size : Nat) (address : Word) :
    Decidable (Within base size address) :=
  inferInstanceAs (Decidable (_ < _))

theorem within_iff {base address : Word} {size : Nat}
    (bound : base.toNat + size ≤ 2 ^ 32) :
    Within base size address ↔
      base.toNat ≤ address.toNat ∧ address.toNat < base.toNat + size := by
  unfold Within
  constructor <;> intro _ <;> bv_omega

theorem within_add_ofNat_iff {base address : Word} {size i : Nat}
    (bound : (address - base).toNat + i < 2 ^ 32) :
    Within base size (address + BitVec.ofNat 32 i) ↔
      (address - base).toNat + i < size := by
  have index : address + BitVec.ofNat 32 i - base =
      address - base + BitVec.ofNat 32 i := by bv_omega
  rw [Within, index, toNat_add_ofNat bound]

theorem within_add_iff {base address : Word} {count size : Nat}
    (bound : count + size ≤ 2 ^ 32) :
    Within (base + BitVec.ofNat 32 count) size address ↔
      count ≤ (address - base).toNat ∧
        (address - base).toNat < count + size := by
  have index : address - (base + BitVec.ofNat 32 count) =
      address - base - BitVec.ofNat 32 count := by bv_omega
  rw [Within, index]
  generalize address - base = offset
  have := offset.isLt
  rw [BitVec.toNat_sub, BitVec.toNat_ofNat]
  omega

theorem add_ofNat_toNat_sub (base address : Word) :
    base + BitVec.ofNat 32 (address - base).toNat = address := by
  rw [BitVec.ofNat_toNat, BitVec.setWidth_eq, BitVec.add_comm,
    BitVec.sub_add_cancel]

/-- A scan upwards that goes on while `Continues` holds stays within the range
exactly when something there stops it. -/
theorem scan_within_iff {base address : Word} {size : Nat}
    (bound : size < 2 ^ 32) {Continues : Nat → Prop} :
    (∀ k, (∀ j, j < k → Continues j) →
        Within base size (address + BitVec.ofNat 32 k)) ↔
      ∃ k, (address - base).toNat + k < size ∧ ¬ Continues k := by
  constructor
  · intro inside
    by_contra unstopped
    push Not at unstopped
    have first : (address - base).toNat < size := by
      have start := inside 0 (by simp)
      rwa [within_add_ofNat_iff (by omega)] at start
    -- The scan gets as far as the first address beyond the range.
    have beyond := inside (size - (address - base).toNat)
      fun j before => unstopped j (by omega)
    rw [within_add_ofNat_iff (by omega)] at beyond
    omega
  · rintro ⟨k, near, stops⟩ i continues
    have order : i ≤ k := by
      by_contra late
      exact stops (continues k (by omega))
    rw [within_add_ofNat_iff (by omega)]
    omega

theorem range_within_iff {base address : Word} {size count : Nat}
    (bound : size < 2 ^ 32) :
    (∀ i, i < count → Within base size (address + BitVec.ofNat 32 i)) ↔
      count = 0 ∨ (address - base).toNat + count ≤ size := by
  cases count with
  | zero => simp
  | succ count =>
      have scan := @scan_within_iff base address size bound (· < count)
      have reach (i : Nat) : (∀ j, j < i → j < count) ↔ i < count + 1 :=
        ⟨fun continues => by
          by_contra late
          exact absurd (continues count (by omega)) (by omega),
          fun near j before => by omega⟩
      simp only [reach] at scan
      rw [scan]
      constructor
      · intro ⟨k, near, stops⟩
        exact .inr (by omega)
      · intro fits
        exact ⟨count, by omega, by omega⟩

end Word

abbrev Memory := Word → Byte

namespace Memory

/-- The bytes laid out from `base` up, and zero everywhere else. -/
def ofBytes (base : Word) (bytes : List Byte) : Memory :=
  fun address => bytes.getD (address - base).toNat 0

/-- The word at an address, least significant byte first. -/
def word (mem : Memory) (address : Word) : Word :=
  .pack (mem address) (mem (address + 1)) (mem (address + 2))
    (mem (address + 3))

/-- The word at an address, most significant byte first. -/
def beWord (mem : Memory) (address : Word) : Word :=
  .pack (mem (address + 3)) (mem (address + 2)) (mem (address + 1))
    (mem address)

def wordAddresses (address : Word) : List Word :=
  [address, address + 1, address + 2, address + 3]

def loadByte (mem : Memory) (address : Word) : Traced Word Byte :=
  .touch [address] (mem address)

def loadWord (mem : Memory) (address : Word) : Traced Word Word :=
  .touch (wordAddresses address) (mem.word address)

def setByte (mem : Memory) (address : Word) (value : Byte) : Memory :=
  fun other => if other = address then value else mem other

def setWord (mem : Memory) (address value : Word) : Memory :=
  fun other =>
    if (other - address).toNat < 4 then value.byte (other - address).toNat
    else mem other

@[simp] theorem val_loadByte (mem : Memory) (address : Word) :
    (mem.loadByte address).val = mem address := (rfl)

@[simp] theorem reads_loadByte (mem : Memory) (address : Word) :
    (mem.loadByte address).reads = [address] := rfl

@[simp] theorem val_loadWord (mem : Memory) (address : Word) :
    (mem.loadWord address).val = mem.word address := (rfl)

@[simp] theorem reads_loadWord (mem : Memory) (address : Word) :
    (mem.loadWord address).reads = wordAddresses address := rfl

@[simp] theorem setByte_same (mem : Memory) (address : Word) (value : Byte) :
    mem.setByte address value address = value := by
  simp [setByte]

theorem setByte_other (mem : Memory) {address other : Word} (value : Byte)
    (different : other ≠ address) :
    mem.setByte address value other = mem other := by
  simp [setByte, different]

theorem setWord_outside (mem : Memory) {address other : Word} (value : Word)
    (outside : ¬ Word.Within address 4 other) :
    mem.setWord address value other = mem other :=
  if_neg outside

theorem byte_word (mem : Memory) (address : Word) {i : Nat} (bound : i < 4) :
    (mem.word address).byte i = mem (address + BitVec.ofNat 32 i) := by
  interval_cases i <;> simp [word]

theorem word_congr {mem now : Memory} {address : Word}
    (same : ∀ i, i < 4 →
      now (address + BitVec.ofNat 32 i) = mem (address + BitVec.ofNat 32 i)) :
    now.word address = mem.word address := by
  have first : now address = mem address := by simpa using same 0 (by decide)
  rw [word, word, first]
  exact congr (congr (congrArg _ (same 1 (by decide))) (same 2 (by decide)))
    (same 3 (by decide))

theorem setWord_inside (mem : Memory) (address value : Word) {i : Nat}
    (bound : i < 4) :
    mem.setWord address value (address + BitVec.ofNat 32 i) = value.byte i := by
  have offset : (address + BitVec.ofNat 32 i - address).toNat = i := by
    bv_omega
  simp only [setWord, offset, if_pos bound]

theorem setWord_word_inside (mem : Memory) (source target : Word) {i : Nat}
    (bound : i < 4) :
    mem.setWord target (mem.word source) (target + BitVec.ofNat 32 i) =
      mem (source + BitVec.ofNat 32 i) :=
  (mem.setWord_inside target _ bound).trans (byte_word mem source bound)

@[simp] theorem word_setWord_same (mem : Memory) (address value : Word) :
    (mem.setWord address value).word address = value := by
  have first : mem.setWord address value address = value.byte 0 := by
    simpa using mem.setWord_inside address value (i := 0) (by decide)
  calc
    (mem.setWord address value).word address =
        .pack (value.byte 0) (value.byte 1) (value.byte 2) (value.byte 3) := by
      rw [word, first]
      exact congr (congr (congrArg _
        (mem.setWord_inside address value (by decide : 1 < 4)))
        (mem.setWord_inside address value (by decide : 2 < 4)))
        (mem.setWord_inside address value (by decide : 3 < 4))
    _ = value := Word.pack_byte value

theorem word_setWord_apart (mem : Memory) {address other : Word} (value : Word)
    (below : 4 ≤ (other - address).toNat) (above : 4 ≤ (address - other).toNat) :
    (mem.setWord address value).word other = mem.word other := by
  apply word_congr
  intro i bound
  apply setWord_outside
  unfold Word.Within
  bv_omega

def Holds (mem : Memory) (address : Word) : List Byte → Prop
  | [] => True
  | head :: tail => mem address = head ∧ Holds mem (address + 1) tail

@[simp] theorem holds_nil (mem : Memory) (address : Word) :
    mem.Holds address [] := trivial

@[simp] theorem holds_cons (mem : Memory) (address : Word) (head : Byte)
    (tail : List Byte) :
    mem.Holds address (head :: tail) ↔
      mem address = head ∧ mem.Holds (address + 1) tail := Iff.rfl

instance decidableHolds (mem : Memory) :
    (address : Word) → (bytes : List Byte) → Decidable (mem.Holds address bytes)
  | _, [] => .isTrue trivial
  | address, head :: tail =>
      have := decidableHolds mem (address + 1) tail
      inferInstanceAs (Decidable (mem address = head ∧ _))

theorem holds_append {mem : Memory} {address : Word} {front back : List Byte} :
    mem.Holds address (front ++ back) ↔
      mem.Holds address front ∧
        mem.Holds (address + BitVec.ofNat 32 front.length) back := by
  induction front generalizing address with
  | nil => simp
  | cons head tail ih =>
      have shift : address + 1 + BitVec.ofNat 32 tail.length =
          address + BitVec.ofNat 32 (tail.length + 1) := by
        rw [Nat.add_comm]
        exact Word.add_ofNat_add_ofNat address 1 tail.length
      simp only [List.cons_append, holds_cons, ih, List.length_cons, shift,
        and_assoc]

theorem holds_iff {mem : Memory} {address : Word} {bytes : List Byte} :
    mem.Holds address bytes ↔
      ∀ (i : Nat) (bound : i < bytes.length),
        mem (address + BitVec.ofNat 32 i) = bytes[i] := by
  induction bytes generalizing address with
  | nil => simp
  | cons head tail ih =>
      rw [holds_cons, ih]
      constructor
      · rintro ⟨first, rest⟩ i bound
        cases i with
        | zero => simpa using first
        | succ i =>
            have later := rest i (by simpa using bound)
            rw [show address + 1 = address + BitVec.ofNat 32 1 from rfl,
              Word.add_ofNat_add_ofNat, Nat.add_comm] at later
            simpa using later
      · intro all
        have first : mem (address + BitVec.ofNat 32 0) = head :=
          all 0 (by simp)
        refine ⟨by simpa using first, fun i bound => ?_⟩
        have later := all (i + 1) (by simpa using bound)
        rw [show address + 1 = address + BitVec.ofNat 32 1 from rfl,
          Word.add_ofNat_add_ofNat, Nat.add_comm]
        simpa using later

theorem Holds.slice {mem : Memory} {address : Word} {bytes : List Byte}
    {offset : Nat} {part : List Byte} (held : mem.Holds address bytes)
    (isPart : part <+: bytes.drop offset)
    (bound : offset ≤ bytes.length) :
    mem.Holds (address + BitVec.ofNat 32 offset) part := by
  obtain ⟨rest, split⟩ := isPart
  have whole := held
  rw [← List.take_append_drop offset bytes, ← split, holds_append,
    List.length_take_of_le bound, holds_append] at whole
  exact whole.2.1

def beBytes (value : Word) : List Byte :=
  [value.byte 3, value.byte 2, value.byte 1, value.byte 0]

@[simp] theorem length_beBytes (value : Word) :
    (beBytes value).length = 4 := rfl

theorem holds_beBytes {mem : Memory} {address value : Word} :
    mem.Holds address (beBytes value) ↔ mem.beWord address = value := by
  have two : address + 1 + 1 = address + 2 := by bv_omega
  have three : address + 2 + 1 = address + 3 := by bv_omega
  simp only [beBytes, holds_cons, holds_nil, two, three, and_true, beWord]
  constructor
  · rintro ⟨h₃, h₂, h₁, h₀⟩
    rw [h₀, h₁, h₂, h₃, Word.pack_byte]
  · rintro rfl
    simp

theorem mem_wordAddresses {address other : Word} :
    other ∈ wordAddresses address ↔ Word.Within address 4 other := by
  simp only [wordAddresses, List.mem_cons, List.not_mem_nil, or_false,
    Word.Within]
  constructor
  · rintro (rfl | rfl | rfl | rfl) <;> bv_omega
  · intro near
    have split : (other - address).toNat = 0 ∨ (other - address).toNat = 1 ∨
        (other - address).toNat = 2 ∨ (other - address).toNat = 3 := by omega
    rcases split with h | h | h | h <;> bv_omega

theorem readsIn_loadWord_iff {mem : Memory} {base address : Word} {size : Nat}
    (bound : size < 2 ^ 32) :
    (mem.loadWord address).ReadsIn (Word.Within base size) ↔
      (address - base).toNat + 4 ≤ size := by
  have scan := @Word.scan_within_iff base address size bound (· < 3)
  have reads : (mem.loadWord address).ReadsIn (Word.Within base size) ↔
      ∀ k, (∀ j, j < k → j < 3) →
        Word.Within base size (address + BitVec.ofNat 32 k) := by
    simp only [Traced.ReadsIn, reads_loadWord, mem_wordAddresses]
    constructor
    · intro inside k near
      refine inside _ ?_
      have small : k < 4 := by
        by_contra late
        exact absurd (near 3 (by omega)) (by decide)
      unfold Word.Within
      bv_omega
    · intro inside a near
      have place : address + BitVec.ofNat 32 (a - address).toNat = a := by
        rw [BitVec.ofNat_toNat, BitVec.setWidth_eq]
        bv_omega
      rw [← place]
      refine inside _ fun j before => ?_
      unfold Word.Within at near
      omega
  rw [reads, scan]
  constructor
  · rintro ⟨k, near, stops⟩
    omega
  · intro fits
    exact ⟨3, by omega, by omega⟩

/-! Half-words, least significant byte first. -/

def half (mem : Memory) (address : Word) : BitVec 16 :=
  mem (address + 1) ++ mem address

def setHalf (mem : Memory) (address : Word) (value : BitVec 16) : Memory :=
  fun other =>
    if other = address then value.setWidth 8
    else if other = address + 1 then (value >>> 8).setWidth 8
    else mem other

@[simp] theorem half_setHalf_same (mem : Memory) (address : Word)
    (value : BitVec 16) : (mem.setHalf address value).half address = value := by
  have next : address + 1 ≠ address := by bv_omega
  have low : mem.setHalf address value address = value.setWidth 8 := if_pos rfl
  have high : mem.setHalf address value (address + 1) =
      (value >>> 8).setWidth 8 := (if_neg next).trans (if_pos rfl)
  rw [half, low, high]
  apply BitVec.eq_of_getLsbD_eq
  intro i bound
  rw [BitVec.getLsbD_append]
  by_cases low : i < 8
  · simp [low]
  · simp [low, show i - 8 < 8 by omega, show 8 + (i - 8) = i by omega]

theorem setHalf_outside (mem : Memory) {address other : Word}
    (value : BitVec 16) (outside : ¬ Word.Within address 2 other) :
    mem.setHalf address value other = mem other := by
  have first : other ≠ address := by
    rintro rfl
    exact outside (by unfold Word.Within; bv_omega)
  have second : other ≠ address + 1 := by
    rintro rfl
    exact outside (by unfold Word.Within; bv_omega)
  rw [setHalf, if_neg first, if_neg second]

theorem half_congr {mem now : Memory} {address : Word}
    (same : ∀ a, Word.Within address 2 a → now a = mem a) :
    now.half address = mem.half address := by
  rw [half, half, same address (by unfold Word.Within; bv_omega),
    same (address + 1) (by unfold Word.Within; bv_omega)]

end Memory

end AuxLoader.Data
