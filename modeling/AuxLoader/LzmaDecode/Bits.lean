import Mathlib.Data.Nat.Log
import AuxLoader.Data.Bits
import AuxLoader.LzmaDecode.Bounds

namespace AuxLoader.LzmaDecode

open Data

/-! The bits that the control flow goes by, with what it makes of them. -/

/-- With the bits for answers, and `out` for the output so far, the program
ends with the value and leaves `last`. -/
def Tells {α : Type} : Decoding α → (bits : List Bool) → (out : List Byte) →
    α → (last : List Byte) → Prop
  | .done result, bits, out, value, last =>
      bits = [] ∧ result = value ∧ out = last
  | .ask (.bit _) next, bits, out, value, last =>
      ∃ b rest, bits = b :: rest ∧ Tells (next b) rest out value last
  | .ask .directBit next, bits, out, value, last =>
      ∃ b rest, bits = b :: rest ∧ Tells (next b) rest out value last
  | .ask (.load index) next, bits, out, value, last =>
      ∃ byte, out[index.toNat]? = some byte ∧
        Tells (next byte) bits out value last
  | .ask (.store index byte) next, bits, out, value, last =>
      index.toNat = out.length ∧ Tells (next ()) bits (out ++ [byte]) value last
  | .ask .dataError _, _, _, _, _ => False

section Tells

variable {α β : Type} {bits : List Bool} {out last : List Byte}

@[simp] theorem tells_done {result value : α} :
    Tells (.done result) bits out value last ↔
      bits = [] ∧ result = value ∧ out = last := Iff.rfl

@[simp] theorem tells_dataError {value : α} :
    ¬ Tells dataError bits out value last := id

theorem tells_bind {program : Decoding α} {follow : α → Decoding β}
    {value : β} :
    Tells (program >>= follow) bits out value last ↔
      ∃ first rest a mid, bits = first ++ rest ∧
        Tells program first out a mid ∧
        Tells (follow a) rest mid value last := by
  induction program generalizing bits out with
  | done result =>
      constructor
      · intro tells
        exact ⟨[], bits, result, out, rfl, ⟨rfl, rfl, rfl⟩, tells⟩
      · rintro ⟨_, rest, _, _, rfl, ⟨rfl, rfl, rfl⟩, tells⟩
        exact tells
  | ask question next ih =>
      have answered {b : Bool} {rest : List Bool} {a : α} {mid : List Byte} :
          ∀ first, (b :: first) ++ rest = b :: (first ++ rest) := fun _ => rfl
      cases question with
      | bit prob =>
          constructor
          · rintro ⟨b, _, rfl, tells⟩
            obtain ⟨first, rest, a, mid, rfl, before, after⟩ := (ih b).mp tells
            exact ⟨b :: first, rest, a, mid, rfl, ⟨b, first, rfl, before⟩,
              after⟩
          · rintro ⟨_, rest, a, mid, rfl, ⟨b, first, rfl, before⟩, after⟩
            exact ⟨b, _, rfl,
              (ih b).mpr ⟨first, rest, a, mid, rfl, before, after⟩⟩
      | directBit =>
          constructor
          · rintro ⟨b, _, rfl, tells⟩
            obtain ⟨first, rest, a, mid, rfl, before, after⟩ := (ih b).mp tells
            exact ⟨b :: first, rest, a, mid, rfl, ⟨b, first, rfl, before⟩,
              after⟩
          · rintro ⟨_, rest, a, mid, rfl, ⟨b, first, rfl, before⟩, after⟩
            exact ⟨b, _, rfl,
              (ih b).mpr ⟨first, rest, a, mid, rfl, before, after⟩⟩
      | load index =>
          constructor
          · rintro ⟨byte, present, tells⟩
            obtain ⟨first, rest, a, mid, rfl, before, after⟩ :=
              (ih byte).mp tells
            exact ⟨first, rest, a, mid, rfl, ⟨byte, present, before⟩, after⟩
          · rintro ⟨first, rest, a, mid, rfl, ⟨byte, present, before⟩, after⟩
            exact ⟨byte, present,
              (ih byte).mpr ⟨first, rest, a, mid, rfl, before, after⟩⟩
      | store index byte =>
          constructor
          · rintro ⟨here, tells⟩
            obtain ⟨first, rest, a, mid, rfl, before, after⟩ := (ih ()).mp tells
            exact ⟨first, rest, a, mid, rfl, ⟨here, before⟩, after⟩
          · rintro ⟨first, rest, a, mid, rfl, ⟨here, before⟩, after⟩
            exact ⟨here, (ih ()).mpr ⟨first, rest, a, mid, rfl, before, after⟩⟩
      | dataError =>
          constructor
          · exact False.elim
          · rintro ⟨_, _, _, _, _, impossible, _⟩
            exact impossible

/-- What the program keeps to holds of the bits and the output as well. -/
theorem Tells.keeps {numProbs : Nat} {outSize : Word} {post : Nat → α → Prop}
    {program : Decoding α} {value : α}
    (tells : Tells program bits out value last)
    (keeps : program.Keeps (contract numProbs outSize) post out.length) :
    post last.length value := by
  induction program generalizing bits out with
  | done result =>
      obtain ⟨_, rfl, rfl⟩ := tells
      exact keeps
  | ask question next ih =>
      cases question with
      | bit prob =>
          obtain ⟨b, rest, _, tells⟩ := tells
          exact ih b tells (keeps.2 b)
      | directBit =>
          obtain ⟨b, rest, _, tells⟩ := tells
          exact ih b tells (keeps.2 b)
      | load index =>
          obtain ⟨byte, _, tells⟩ := tells
          exact ih byte tells (keeps.2 byte)
      | store index byte =>
          obtain ⟨_, tells⟩ := tells
          refine ih () tells ?_
          rw [List.length_append]
          exact keeps.2 ()
      | dataError => exact tells.elim

theorem tells_bit_bind {prob : Nat} {follow : Bool → Decoding β} {value : β} :
    Tells (bit prob >>= follow) bits out value last ↔
      ∃ b rest, bits = b :: rest ∧ Tells (follow b) rest out value last :=
  Iff.rfl

theorem tells_directBit_bind {follow : Bool → Decoding β} {value : β} :
    Tells (directBit >>= follow) bits out value last ↔
      ∃ b rest, bits = b :: rest ∧ Tells (follow b) rest out value last :=
  Iff.rfl

theorem tells_load_bind {index : Word} {follow : Byte → Decoding β}
    {value : β} :
    Tells (load index >>= follow) bits out value last ↔
      ∃ byte, out[index.toNat]? = some byte ∧
        Tells (follow byte) bits out value last := Iff.rfl

theorem tells_store_bind {index : Word} {byte : Byte}
    {follow : Unit → Decoding β} {value : β} :
    Tells (store index byte >>= follow) bits out value last ↔
      index.toNat = out.length ∧
        Tells (follow ()) bits (out ++ [byte]) value last := Iff.rfl

end Tells

section Numbers

variable {bits : List Bool} {out last : List Byte} {prob : Nat}

theorem tells_getBit {mi res : Nat} :
    Tells (getBit prob mi) bits out res last ↔
      ∃ b : Bool, bits = [b] ∧ res = 2 * mi + b.toNat ∧ last = out := by
  rw [getBit, tells_bit_bind]
  constructor
  · rintro ⟨b, rest, rfl, tells⟩
    cases b with
    | false =>
        obtain ⟨rfl, rfl, rfl⟩ := tells
        exact ⟨false, rfl, by rw [Nat.shiftLeft_eq]; simp; omega, rfl⟩
    | true =>
        obtain ⟨rfl, rfl, rfl⟩ := tells
        exact ⟨true, rfl, by simp; omega, rfl⟩
  · rintro ⟨b, rfl, rfl, rfl⟩
    refine ⟨b, [], rfl, ?_⟩
    cases b with
    | false => exact ⟨rfl, by rw [Nat.shiftLeft_eq]; simp; omega, rfl⟩
    | true => exact ⟨rfl, by simp; omega, rfl⟩

theorem tells_bitTree {levels res number : Nat} :
    Tells (bitTree prob levels res) bits out number last ↔
      ∃ value, value < 2 ^ levels ∧ number = res * 2 ^ levels + value ∧
        bits = bitsDown levels value ∧ last = out := by
  induction levels generalizing res bits with
  | zero =>
      constructor
      · rintro ⟨rfl, rfl, rfl⟩
        exact ⟨0, by decide, by omega, rfl, rfl⟩
      · rintro ⟨value, small, rfl, rfl, rfl⟩
        exact ⟨rfl, by omega, rfl⟩
  | succ levels ih =>
      have number (b : Bool) (value : Nat) :
          (2 * res + b.toNat) * 2 ^ levels + value =
            res * 2 ^ (levels + 1) + (b.toNat * 2 ^ levels + value) := by ring
      rw [bitTree, tells_bind]
      constructor
      · rintro ⟨_, _, _, _, rfl, first, tells⟩
        obtain ⟨b, rfl, rfl, rfl⟩ := tells_getBit.mp first
        obtain ⟨value, small, rfl, rfl, rfl⟩ := ih.mp tells
        exact ⟨_, top_bit_lt small b, number b value,
          (bitsDown_cons small b).symm, rfl⟩
      · rintro ⟨_, small, rfl, rfl, rfl⟩
        obtain ⟨b, value, below, rfl⟩ := exists_top_bit small
        exact ⟨[b], bitsDown levels value, _, last, bitsDown_cons below b,
          tells_getBit.mpr ⟨b, rfl, rfl, rfl⟩,
          ih.mpr ⟨value, below, (number b value).symm, rfl, rfl⟩⟩

theorem tells_rangeDecoderBitTreeDecode {numLevels value : Nat} :
    Tells (rangeDecoderBitTreeDecode prob numLevels) bits out value last ↔
      value < 2 ^ numLevels ∧ bits = bitsDown numLevels value ∧
        last = out := by
  rw [rangeDecoderBitTreeDecode, tells_bind]
  have strip (value : Nat) :
      1 * 2 ^ numLevels + value - 1 <<< numLevels = value := by
    rw [Nat.one_shiftLeft]
    omega
  constructor
  · rintro ⟨first, rest, _, _, rfl, tree, rfl, rfl, rfl⟩
    obtain ⟨value, small, rfl, rfl, rfl⟩ := tells_bitTree.mp tree
    rw [strip, List.append_nil]
    exact ⟨small, rfl, rfl⟩
  · rintro ⟨small, rfl, rfl⟩
    exact ⟨_, [], _, last, (List.append_nil _).symm,
      tells_bitTree.mpr ⟨value, small, rfl, rfl, rfl⟩, rfl, strip value, rfl⟩

theorem ofNat_shiftLeft (value count : Nat) :
    BitVec.ofNat 32 value <<< count = BitVec.ofNat 32 (value * 2 ^ count) := by
  apply BitVec.eq_of_toNat_eq
  rw [BitVec.toNat_shiftLeft, BitVec.toNat_ofNat, BitVec.toNat_ofNat,
    Nat.shiftLeft_eq, Nat.mod_mul_mod]

/-- A bit that has not been set so far. -/
theorem ofNat_or_bit {i low : Nat} (small : low < 2 ^ i) (multiple : Nat) :
    BitVec.ofNat 32 (multiple * 2 ^ (i + 1) + low) |||
        BitVec.ofNat 32 (2 ^ i) =
      BitVec.ofNat 32 (multiple * 2 ^ (i + 1) + (low + 2 ^ i)) := by
  have part : low + 2 ^ i = 2 ^ i ||| low := by
    rw [Nat.add_comm, ← Nat.one_shiftLeft]
    exact Nat.shiftLeft_add_eq_or_of_lt small 1
  have above : low + 2 ^ i < 2 ^ (i + 1) := by
    rw [Nat.pow_succ]
    omega
  rw [← BitVec.ofNat_or, ← Nat.shiftLeft_eq,
    Nat.shiftLeft_add_eq_or_of_lt (by omega),
    Nat.shiftLeft_add_eq_or_of_lt above, part, Nat.or_assoc,
    Nat.or_comm low]

theorem tells_reverseBits {count i low multiple mi : Nat} (small : low < 2 ^ i)
    {rep0 : Word} :
    Tells (reverseBits prob count (BitVec.ofNat 32 (2 ^ i)) mi
        (BitVec.ofNat 32 (multiple * 2 ^ (i + count) + low)))
        bits out rep0 last ↔
      ∃ value, value < 2 ^ count ∧
        rep0 = BitVec.ofNat 32
          (multiple * 2 ^ (i + count) + (value * 2 ^ i + low)) ∧
        bits = bitsUp count value ∧ last = out := by
  induction count generalizing i low mi bits with
  | zero =>
      constructor
      · rintro ⟨rfl, rfl, rfl⟩
        exact ⟨0, by decide, by rw [Nat.zero_mul, Nat.zero_add], rfl, rfl⟩
      · rintro ⟨value, none, rfl, rfl, rfl⟩
        obtain rfl : value = 0 := by omega
        exact ⟨rfl, by rw [Nat.zero_mul, Nat.zero_add], rfl⟩
  | succ count ih =>
      have onward : BitVec.ofNat 32 (2 ^ i) <<< 1 =
          BitVec.ofNat 32 (2 ^ (i + 1)) := by
        rw [ofNat_shiftLeft, ← Nat.pow_add]
      have fewer : i + (count + 1) = i + 1 + count := by omega
      have wide : multiple * 2 ^ (i + (count + 1)) =
          multiple * 2 ^ count * 2 ^ (i + 1) := by
        rw [fewer]
        ring
      have number (b : Bool) (value : Nat) :
          value * 2 ^ (i + 1) + (low + b.toNat * 2 ^ i) =
            (b.toNat + 2 * value) * 2 ^ i + low := by ring
      -- One bit is like the other.
      have step (b : Bool) (rest : List Bool) :
          Tells (if b = true then
              reverseBits prob count (BitVec.ofNat 32 (2 ^ i) <<< 1)
                (mi + mi + 1)
                (BitVec.ofNat 32 (multiple * 2 ^ (i + (count + 1)) + low) |||
                  BitVec.ofNat 32 (2 ^ i))
            else
              reverseBits prob count (BitVec.ofNat 32 (2 ^ i) <<< 1) (mi <<< 1)
                (BitVec.ofNat 32 (multiple * 2 ^ (i + (count + 1)) + low)))
            rest out rep0 last ↔
          ∃ value, value < 2 ^ count ∧
            rep0 = BitVec.ofNat 32 (multiple * 2 ^ (i + (count + 1)) +
              ((b.toNat + 2 * value) * 2 ^ i + low)) ∧
            rest = bitsUp count value ∧ last = out := by
        cases b with
        | false =>
            have below : low + false.toNat * 2 ^ i < 2 ^ (i + 1) := by
              rw [Nat.pow_succ, Bool.toNat_false]
              omega
            have same : low = low + false.toNat * 2 ^ i := by simp
            simp only [Bool.false_eq_true, if_false]
            rw [onward, fewer]
            conv_lhs => rw [same]
            rw [ih below]
            simp only [number]
        | true =>
            have below : low + true.toNat * 2 ^ i < 2 ^ (i + 1) := by
              rw [Nat.pow_succ, Bool.toNat_true]
              omega
            have same : low + 2 ^ i = low + true.toNat * 2 ^ i := by simp
            simp only [if_true]
            rw [onward, wide, ofNat_or_bit small, ← wide, fewer, same, ih below]
            simp only [number]
      rw [reverseBits, tells_bit_bind]
      constructor
      · rintro ⟨b, rest, rfl, tells⟩
        obtain ⟨value, small, rfl, rfl, rfl⟩ := (step b rest).mp tells
        exact ⟨_, low_bit_lt small b, rfl, (bitsUp_cons count value b).symm,
          rfl⟩
      · rintro ⟨_, small, rfl, rfl, rfl⟩
        obtain ⟨b, value, below, rfl⟩ := exists_low_bit small
        exact ⟨b, bitsUp count value, bitsUp_cons count value b,
          (step b _).mpr ⟨value, below, rfl, rfl, rfl⟩⟩

/-- A bit that is shifted in. -/
theorem ofNat_shiftLeft_or (high : Nat) (b : Bool) :
    BitVec.ofNat 32 high <<< 1 ||| BitVec.ofNat 32 b.toNat =
      BitVec.ofNat 32 (2 * high + b.toNat) := by
  rw [ofNat_shiftLeft, ← BitVec.ofNat_or, Nat.mul_comm 2, ← Nat.shiftLeft_eq,
    Nat.shiftLeft_add_eq_or_of_lt (Nat.lt_of_lt_of_le b.toNat_lt (by decide))]

theorem tells_directBits {count high : Nat} {rep0 : Word} :
    Tells (directBits count (BitVec.ofNat 32 high)) bits out rep0 last ↔
      ∃ value, value < 2 ^ count ∧
        rep0 = BitVec.ofNat 32 (high * 2 ^ count + value) ∧
        bits = bitsDown count value ∧ last = out := by
  induction count generalizing high bits with
  | zero =>
      constructor
      · rintro ⟨rfl, rfl, rfl⟩
        exact ⟨0, by decide, by simp, rfl, rfl⟩
      · rintro ⟨value, none, rfl, rfl, rfl⟩
        obtain rfl : value = 0 := by omega
        exact ⟨rfl, by simp, rfl⟩
  | succ count ih =>
      have number (b : Bool) (value : Nat) :
          (2 * high + b.toNat) * 2 ^ count + value =
            high * 2 ^ (count + 1) + (b.toNat * 2 ^ count + value) := by ring
      have step (b : Bool) :
          (if b = true then
            directBits count (BitVec.ofNat 32 high <<< 1 ||| 1)
          else directBits count (BitVec.ofNat 32 high <<< 1)) =
            directBits count (BitVec.ofNat 32 (2 * high + b.toNat)) := by
        rw [← ofNat_shiftLeft_or]
        cases b <;> simp
      rw [directBits, tells_directBit_bind]
      constructor
      · rintro ⟨b, rest, rfl, tells⟩
        rw [step] at tells
        obtain ⟨value, small, rfl, rfl, rfl⟩ := ih.mp tells
        exact ⟨_, top_bit_lt small b, by rw [number],
          (bitsDown_cons small b).symm, rfl⟩
      · rintro ⟨_, small, rfl, rfl, rfl⟩
        obtain ⟨b, value, below, rfl⟩ := exists_top_bit small
        refine ⟨b, bitsDown count value, bitsDown_cons below b, ?_⟩
        rw [step]
        exact ih.mpr ⟨value, below, by rw [number], rfl, rfl⟩

/-! Lengths and distances. -/

def lenBits (len : Nat) : List Bool :=
  if len < kLenNumLowSymbols then
    false :: bitsDown kLenNumLowBits len
  else if len < kLenNumLowSymbols + kLenNumMidSymbols then
    true :: false :: bitsDown kLenNumMidBits (len - kLenNumLowSymbols)
  else
    true :: true :: bitsDown kLenNumHighBits
      (len - (kLenNumLowSymbols + kLenNumMidSymbols))

theorem tells_decodeLen {posState len : Nat} :
    Tells (decodeLen prob posState) bits out len last ↔
      len < 272 ∧ bits = lenBits len ∧ last = out := by
  have low : kLenNumLowSymbols = 8 := rfl
  have mid : kLenNumMidSymbols = 8 := rfl
  rw [decodeLen, tells_bit_bind]
  constructor
  · rintro ⟨b, rest, rfl, tells⟩
    cases b with
    | false =>
        obtain ⟨small, rfl, rfl⟩ := tells_rangeDecoderBitTreeDecode.mp tells
        rw [show kLenNumLowBits = 3 from rfl] at small
        exact ⟨by omega, by rw [lenBits, if_pos (by omega)], rfl⟩
    | true =>
        obtain ⟨b, rest, rfl, later⟩ := tells_bit_bind.mp tells
        cases b with
        | false =>
            obtain ⟨_, _, len, _, rfl, tree, rfl, rfl, rfl⟩ :=
              tells_bind.mp later
            obtain ⟨small, rfl, rfl⟩ := tells_rangeDecoderBitTreeDecode.mp tree
            rw [show kLenNumMidBits = 3 from rfl] at small
            refine ⟨by omega, ?_, rfl⟩
            rw [lenBits, if_neg (by omega), if_pos (by omega),
              Nat.add_sub_cancel, List.append_nil]
        | true =>
            obtain ⟨_, _, len, _, rfl, tree, rfl, rfl, rfl⟩ :=
              tells_bind.mp later
            obtain ⟨small, rfl, rfl⟩ := tells_rangeDecoderBitTreeDecode.mp tree
            rw [show kLenNumHighBits = 8 from rfl] at small
            refine ⟨by omega, ?_, rfl⟩
            rw [lenBits, if_neg (by omega), if_neg (by omega),
              Nat.add_sub_cancel, List.append_nil]
  · rintro ⟨small, rfl, rfl⟩
    rw [lenBits]
    split_ifs with first second
    · exact ⟨false, _, rfl,
        tells_rangeDecoderBitTreeDecode.mpr ⟨first, rfl, rfl⟩⟩
    · refine ⟨true, _, rfl, tells_bit_bind.mpr ⟨false, _, rfl,
        tells_bind.mpr ⟨_, [], len - kLenNumLowSymbols, last,
          (List.append_nil _).symm, tells_rangeDecoderBitTreeDecode.mpr
            ⟨?_, rfl, rfl⟩, rfl, ?_, rfl⟩⟩⟩
      · rw [show kLenNumMidBits = 3 from rfl]
        omega
      · omega
    · refine ⟨true, _, rfl, tells_bit_bind.mpr ⟨true, _, rfl,
        tells_bind.mpr ⟨_, [],
          len - (kLenNumLowSymbols + kLenNumMidSymbols), last,
          (List.append_nil _).symm, tells_rangeDecoderBitTreeDecode.mpr
            ⟨?_, rfl, rfl⟩, rfl, ?_, rfl⟩⟩⟩
      · rw [show kLenNumHighBits = 8 from rfl]
        omega
      · omega

/-- The number of a distance's highest two bits, with their place. -/
def posSlotOf (distance : Nat) : Nat :=
  if distance < kStartPosModelIndex then distance
  else
    2 * Nat.log 2 distance + distance / 2 ^ (Nat.log 2 distance - 1) % 2

theorem posSlotOf_small {distance : Nat} (near : distance < 4) :
    posSlotOf distance = distance := if_pos near

/-- The bits below them. -/
def footerBits (posSlot distance : Nat) : List Bool :=
  let numDirectBits := posSlot / 2 - 1
  if posSlot < kStartPosModelIndex then
    []
  else if posSlot < kEndPosModelIndex then
    bitsUp numDirectBits (distance % 2 ^ numDirectBits)
  else
    bitsDown (numDirectBits - kNumAlignBits)
        (distance % 2 ^ numDirectBits / 2 ^ kNumAlignBits) ++
      bitsUp kNumAlignBits (distance % 2 ^ kNumAlignBits)

def distanceBits (distance : Nat) : List Bool :=
  bitsDown kNumPosSlotBits (posSlotOf distance) ++
    footerBits (posSlotOf distance) distance

/-- A distance with the slot, from the number below the highest two bits. -/
def slotDistance (posSlot footer : Nat) : Nat :=
  (2 + posSlot % 2) * 2 ^ (posSlot / 2 - 1) + footer

theorem posSlotOf_slotDistance {posSlot footer : Nat} (large : 4 ≤ posSlot)
    (small : footer < 2 ^ (posSlot / 2 - 1)) :
    posSlotOf (slotDistance posSlot footer) = posSlot := by
  obtain ⟨n, half⟩ : ∃ n, posSlot / 2 = n + 1 :=
    Nat.exists_eq_add_of_le' (by omega)
  unfold slotDistance
  rw [half, Nat.add_sub_cancel] at small ⊢
  have positive := Nat.two_pow_pos n
  have double : 2 ^ (n + 1) = 2 * 2 ^ n := Nat.pow_succ'
  have quadruple : 2 ^ (n + 1 + 1) = 4 * 2 ^ n := by ring
  have two : 2 ≤ 2 ^ n := by
    have : 1 ≤ n := by omega
    exact Nat.le_self_pow (by omega) 2
  have parity : posSlot % 2 = 0 ∨ posSlot % 2 = 1 := by omega
  have number : (2 + posSlot % 2) * 2 ^ n =
      2 * 2 ^ n + posSlot % 2 * 2 ^ n := by ring
  have bit : posSlot % 2 * 2 ^ n ≤ 1 * 2 ^ n :=
    Nat.mul_le_mul_right _ (by omega)
  have log : Nat.log 2 ((2 + posSlot % 2) * 2 ^ n + footer) = n + 1 := by
    rw [Nat.log_eq_iff (.inl (Nat.succ_ne_zero n))]
    omega
  have high : ((2 + posSlot % 2) * 2 ^ n + footer) / 2 ^ n =
      2 + posSlot % 2 := by
    rw [Nat.mul_comm, Nat.mul_add_div positive, Nat.div_eq_of_lt small,
      Nat.add_zero]
  rw [posSlotOf, if_neg (by rw [show kStartPosModelIndex = 4 from rfl]; omega),
    log, Nat.add_sub_cancel, high]
  omega

theorem exists_slotDistance {distance : Nat} (large : 4 ≤ distance) :
    ∃ posSlot footer, 4 ≤ posSlot ∧ footer < 2 ^ (posSlot / 2 - 1) ∧
      distance = slotDistance posSlot footer ∧
      (distance < 2 ^ 32 → posSlot < 64) := by
  obtain ⟨n, log⟩ : ∃ n, Nat.log 2 distance = n + 2 :=
    Nat.exists_eq_add_of_le' (by
      exact Nat.le_log_of_pow_le (by decide) large)
  have bounds := (Nat.log_eq_iff (.inl (by omega))).mp log
  have positive := Nat.two_pow_pos (n + 1)
  have double : 2 ^ (n + 2) = 2 ^ (n + 1) * 2 := Nat.pow_succ 2 (n + 1)
  have quadruple : 2 ^ (n + 2 + 1) = 2 ^ (n + 1) * 4 := by ring
  have high : 2 ≤ distance / 2 ^ (n + 1) ∧ distance / 2 ^ (n + 1) < 4 := by
    rw [Nat.le_div_iff_mul_le positive, Nat.div_lt_iff_lt_mul positive]
    omega
  have half : (2 * (n + 2) + (distance / 2 ^ (n + 1) - 2)) / 2 - 1 = n + 1 := by
    omega
  refine ⟨2 * (n + 2) + (distance / 2 ^ (n + 1) - 2), distance % 2 ^ (n + 1),
    by omega, ?_, ?_, fun small => ?_⟩
  · rw [half]
    exact Nat.mod_lt _ positive
  · rw [slotDistance, half,
      show 2 + (2 * (n + 2) + (distance / 2 ^ (n + 1) - 2)) % 2 =
        distance / 2 ^ (n + 1) by omega, Nat.mul_comm]
    exact (Nat.div_add_mod _ _).symm
  · have : n + 2 < 32 := by
      by_contra late
      have := Nat.pow_le_pow_right (show 0 < 2 by decide)
        (show 32 ≤ n + 2 by omega)
      omega
    omega

theorem slotDistance_lt {posSlot footer : Nat} (below : posSlot < 64)
    (small : footer < 2 ^ (posSlot / 2 - 1)) :
    slotDistance posSlot footer < 2 ^ 32 := by
  have part : (2 + posSlot % 2) * 2 ^ (posSlot / 2 - 1) ≤
      3 * 2 ^ (posSlot / 2 - 1) := Nat.mul_le_mul_right _ (by omega)
  have top : 2 ^ (posSlot / 2 - 1) ≤ 2 ^ 30 :=
    Nat.pow_le_pow_right (by decide) (by omega)
  unfold slotDistance
  omega

/-- The distances of a slot. -/
theorem exists_footer_iff {posSlot : Nat} (large : 4 ≤ posSlot)
    (below : posSlot < 64) {distance : Word} (Spelt : Nat → Prop) :
    (∃ footer, footer < 2 ^ (posSlot / 2 - 1) ∧
        distance = BitVec.ofNat 32 (slotDistance posSlot footer) ∧
        Spelt footer) ↔
      posSlotOf distance.toNat = posSlot ∧
        Spelt (distance.toNat % 2 ^ (posSlot / 2 - 1)) := by
  have number {footer : Nat} (small : footer < 2 ^ (posSlot / 2 - 1)) :
      slotDistance posSlot footer % 2 ^ (posSlot / 2 - 1) = footer := by
    rw [slotDistance, Nat.mul_comm, Nat.mul_add_mod, Nat.mod_eq_of_lt small]
  constructor
  · rintro ⟨footer, small, rfl, spelt⟩
    rw [BitVec.toNat_ofNat, Nat.mod_eq_of_lt (slotDistance_lt below small),
      number small]
    exact ⟨posSlotOf_slotDistance large small, spelt⟩
  · rintro ⟨slot, spelt⟩
    have far : 4 ≤ distance.toNat := by
      by_contra near
      rw [posSlotOf_small (Nat.not_le.mp near)] at slot
      omega
    obtain ⟨other, footer, large, small, same, _⟩ := exists_slotDistance far
    rw [same, posSlotOf_slotDistance large small] at slot
    subst slot
    rw [same, number small] at spelt
    refine ⟨footer, small, ?_, spelt⟩
    rw [← same, BitVec.ofNat_toNat, BitVec.setWidth_eq]

theorem tells_distanceFooter {posSlot : Nat} (below : posSlot < 64)
    {distance : Word} :
    Tells (distanceFooter posSlot) bits out distance last ↔
      posSlotOf distance.toNat = posSlot ∧
        bits = footerBits posSlot distance.toNat ∧ last = out := by
  have half : posSlot >>> 1 - 1 = posSlot / 2 - 1 := by
    rw [Nat.shiftRight_one]
  have highest : (2 ||| (BitVec.ofNat 32 posSlot &&& 1) : Word) =
      BitVec.ofNat 32 (2 + posSlot % 2) := by
    interval_cases posSlot <;> rfl
  unfold distanceFooter footerBits
  simp only [half, highest]
  by_cases modelled : posSlot < kStartPosModelIndex
  · rw [if_neg (Nat.not_le.mpr modelled), if_pos modelled]
    rw [show kStartPosModelIndex = 4 from rfl] at modelled
    constructor
    · rintro ⟨rfl, rfl, rfl⟩
      rw [BitVec.toNat_ofNat, Nat.mod_eq_of_lt (by omega)]
      exact ⟨posSlotOf_small modelled, rfl, rfl⟩
    · rintro ⟨slot, rfl, rfl⟩
      refine ⟨rfl, ?_, rfl⟩
      have near : distance.toNat < 4 := by
        by_contra far
        obtain ⟨other, footer, large, small, same, _⟩ :=
          exists_slotDistance (Nat.not_lt.mp far)
        rw [same, posSlotOf_slotDistance large small] at slot
        omega
      rw [posSlotOf_small near] at slot
      rw [← slot, BitVec.ofNat_toNat, BitVec.setWidth_eq]
  have large := Nat.not_lt.mp modelled
  rw [if_pos large, if_neg modelled]
  rw [show kStartPosModelIndex = 4 from rfl] at large
  by_cases special : posSlot < kEndPosModelIndex
  · rw [if_pos special, if_pos special, ofNat_shiftLeft,
      ← exists_footer_iff large below fun footer =>
        bits = bitsUp (posSlot / 2 - 1) footer ∧ last = out]
    have spec := @tells_reverseBits bits out last (specPos + (BitVec.ofNat 32
      ((2 + posSlot % 2) * 2 ^ (posSlot / 2 - 1))).toNat - posSlot - 1)
      (posSlot / 2 - 1) 0 0 (2 + posSlot % 2) 1 (by decide) distance
    simp only [Nat.zero_add, Nat.pow_zero, Nat.mul_one, Nat.add_zero] at spec
    exact spec
  · rw [if_neg special, if_neg special]
    rw [show kEndPosModelIndex = 14 from rfl] at special
    have whole : posSlot / 2 - 1 =
        posSlot / 2 - 1 - kNumAlignBits + kNumAlignBits := by
      rw [show kNumAlignBits = 4 from rfl]
      omega
    generalize posSlot / 2 - 1 - kNumAlignBits = count at whole ⊢
    rw [show kNumAlignBits = 4 from rfl] at whole ⊢
    have lowest : distance.toNat % 2 ^ 4 =
        distance.toNat % 2 ^ (posSlot / 2 - 1) % 2 ^ 4 := by
      rw [Nat.mod_mod_of_dvd]
      rw [whole]
      exact Nat.pow_dvd_pow 2 (Nat.le_add_left 4 count)
    rw [lowest, ← exists_footer_iff large below fun footer =>
      bits = bitsDown count (footer / 2 ^ 4) ++ bitsUp 4 (footer % 2 ^ 4) ∧
        last = out, tells_bind]
    have number (high low : Nat) :
        ((2 + posSlot % 2) * 2 ^ count + high) * 2 ^ 4 + low =
          slotDistance posSlot (high * 2 ^ 4 + low) := by
      rw [slotDistance, whole]
      ring
    have spec (high : Nat) {bits : List Bool} {mid : List Byte} :=
      @tells_reverseBits bits mid last align 4 0 0
        ((2 + posSlot % 2) * 2 ^ count + high) 1 (by decide) distance
    simp only [Nat.zero_add, Nat.pow_zero, Nat.mul_one, Nat.add_zero] at spec
    constructor
    · rintro ⟨_, _, _, _, rfl, first, later⟩
      obtain ⟨high, above, rfl, rfl, rfl⟩ := tells_directBits.mp first
      rw [ofNat_shiftLeft] at later
      obtain ⟨low, small, rfl, rfl, rfl⟩ := (spec high).mp later
      refine ⟨high * 2 ^ 4 + low, ?_, by rw [number], ?_, rfl⟩
      · rw [whole, Nat.pow_add]
        omega
      · rw [show (high * 2 ^ 4 + low) / 2 ^ 4 = high by omega,
          show (high * 2 ^ 4 + low) % 2 ^ 4 = low by omega]
    · rintro ⟨footer, small, rfl, rfl, rfl⟩
      rw [whole, Nat.pow_add] at small
      refine ⟨_, _, _, last, rfl, tells_directBits.mpr
        ⟨footer / 2 ^ 4, by omega, rfl, rfl, rfl⟩, ?_⟩
      rw [ofNat_shiftLeft]
      refine (spec (footer / 2 ^ 4)).mpr
        ⟨footer % 2 ^ 4, by omega, ?_, rfl, rfl⟩
      rw [number, show footer / 2 ^ 4 * 2 ^ 4 + footer % 2 ^ 4 = footer by
        omega]

theorem posSlotOf_lt (distance : Word) : posSlotOf distance.toNat < 64 := by
  by_cases near : distance.toNat < 4
  · rw [posSlotOf_small near]
    omega
  · obtain ⟨posSlot, footer, large, small, same, below⟩ :=
      exists_slotDistance (Nat.not_lt.mp near)
    rw [same, posSlotOf_slotDistance large small]
    exact below distance.isLt

theorem tells_decodeDistance {len : Nat} {distance : Word} :
    Tells (decodeDistance len) bits out distance last ↔
      bits = distanceBits distance.toNat ∧ last = out := by
  rw [decodeDistance, tells_bind, distanceBits]
  constructor
  · rintro ⟨_, _, posSlot, _, rfl, tree, footer⟩
    obtain ⟨below, rfl, rfl⟩ := tells_rangeDecoderBitTreeDecode.mp tree
    obtain ⟨rfl, rfl, rfl⟩ := (tells_distanceFooter below).mp footer
    exact ⟨rfl, rfl⟩
  · rintro ⟨rfl, rfl⟩
    have below := posSlotOf_lt distance
    exact ⟨_, _, _, last, rfl,
      tells_rangeDecoderBitTreeDecode.mpr ⟨below, rfl, rfl⟩,
      (tells_distanceFooter below).mpr ⟨rfl, rfl, rfl⟩⟩

/-! Literals. The bits of a literal after a match are the same: it is only
the probabilities that differ. -/

/-- `symbol` is a one and the first bits of a literal that has `count` more. -/
structure Begun (count symbol : Nat) : Prop where
  above : 0x100 ≤ symbol * 2 ^ count
  below : (symbol + 1) * 2 ^ count ≤ 0x200

theorem Begun.lt {count symbol : Nat} (begun : Begun (count + 1) symbol) :
    symbol < 0x100 := by
  have two : 2 ≤ 2 ^ (count + 1) := Nat.le_self_pow (by omega) 2
  have wide := Nat.mul_le_mul_left (symbol + 1) two
  have below := begun.below
  omega

theorem Begun.onward {count symbol : Nat} (begun : Begun (count + 1) symbol)
    (b : Bool) : Begun count (2 * symbol + b.toNat) := by
  have bit := b.toNat_lt
  constructor
  · calc
      0x100 ≤ symbol * 2 ^ (count + 1) := begun.above
      _ = 2 * symbol * 2 ^ count := by ring
      _ ≤ (2 * symbol + b.toNat) * 2 ^ count :=
        Nat.mul_le_mul_right _ (by omega)
  · calc
      (2 * symbol + b.toNat + 1) * 2 ^ count ≤ (2 * symbol + 2) * 2 ^ count :=
        Nat.mul_le_mul_right _ (by omega)
      _ = (symbol + 1) * 2 ^ (count + 1) := by ring
      _ ≤ 0x200 := begun.below

theorem symbol_onward (symbol count value : Nat) (b : Bool) :
    (2 * symbol + b.toNat) * 2 ^ count + value =
      symbol * 2 ^ (count + 1) + (b.toNat * 2 ^ count + value) := by ring

theorem tells_literalBits {rounds count symbol number : Nat}
    (enough : count ≤ rounds) (begun : Begun count symbol) :
    Tells (literalBits prob rounds symbol) bits out number last ↔
      ∃ value, value < 2 ^ count ∧ number = symbol * 2 ^ count + value ∧
        bits = bitsDown count value ∧ last = out := by
  induction count generalizing rounds symbol bits with
  | zero =>
      have ended : literalBits prob rounds symbol = .done symbol := by
        have above := begun.above
        cases rounds with
        | zero => rfl
        | succ rounds => exact if_neg (by omega)
      rw [ended]
      constructor
      · rintro ⟨rfl, rfl, rfl⟩
        exact ⟨0, by decide, by omega, rfl, rfl⟩
      · rintro ⟨value, small, rfl, rfl, rfl⟩
        exact ⟨rfl, by omega, rfl⟩
  | succ count ih =>
      obtain ⟨rounds, rfl⟩ : ∃ fewer, rounds = fewer + 1 :=
        Nat.exists_eq_add_of_le' (by omega)
      rw [literalBits, if_pos begun.lt, tells_bind]
      constructor
      · rintro ⟨_, _, _, _, rfl, first, later⟩
        obtain ⟨b, rfl, rfl, rfl⟩ := tells_getBit.mp first
        obtain ⟨value, small, rfl, rfl, rfl⟩ :=
          (ih (by omega) (begun.onward b)).mp later
        exact ⟨_, top_bit_lt small b, symbol_onward symbol count value b,
          (bitsDown_cons small b).symm, rfl⟩
      · rintro ⟨_, small, rfl, rfl, rfl⟩
        obtain ⟨b, value, fits, rfl⟩ := exists_top_bit small
        exact ⟨[b], bitsDown count value, _, last, bitsDown_cons fits b,
          tells_getBit.mpr ⟨b, rfl, rfl, rfl⟩,
          (ih (by omega) (begun.onward b)).mpr
            ⟨value, fits, (symbol_onward symbol count value b).symm, rfl, rfl⟩⟩

/-- Wherever the first bit that differs is. -/
theorem tells_matchedBits {count matchByte symbol number : Nat}
    (enough : count ≤ 8) (begun : Begun count symbol) :
    Tells (matchedBits prob count matchByte symbol >>= literalBits prob 8)
        bits out number last ↔
      ∃ value, value < 2 ^ count ∧ number = symbol * 2 ^ count + value ∧
        bits = bitsDown count value ∧ last = out := by
  induction count generalizing matchByte symbol bits with
  | zero => exact tells_literalBits (by decide) begun
  | succ count ih =>
      have stop (b : Bool) {bits : List Bool} :=
        @tells_literalBits bits out last prob 8 count (2 * symbol + b.toNat)
          number (by omega) (begun.onward b)
      have go (b : Bool) (matchByte : Nat) {bits : List Bool} :=
        @ih bits matchByte (2 * symbol + b.toNat) (by omega) (begun.onward b)
      have step (b : Bool) {rest : List Bool} :
          Tells ((if b = true then
              if matchByte <<< 1 &&& 0x100 = 0 then
                Dialogue.done (symbol + symbol + 1)
              else if symbol + symbol + 1 < 0x100 then
                matchedBits prob count (matchByte <<< 1) (symbol + symbol + 1)
              else Dialogue.done (symbol + symbol + 1)
            else
              if matchByte <<< 1 &&& 0x100 ≠ 0 then
                Dialogue.done (symbol <<< 1)
              else if symbol <<< 1 < 0x100 then
                matchedBits prob count (matchByte <<< 1) (symbol <<< 1)
              else Dialogue.done (symbol <<< 1)) >>= literalBits prob 8)
            rest out number last ↔
          ∃ value, value < 2 ^ count ∧
            number = (2 * symbol + b.toNat) * 2 ^ count + value ∧
            rest = bitsDown count value ∧ last = out := by
        cases b with
        | false =>
            have next : symbol <<< 1 = 2 * symbol + false.toNat := by
              rw [Nat.shiftLeft_eq, Bool.toNat_false]
              omega
            simp only [Bool.false_eq_true, if_false, next]
            split_ifs
            · exact stop false
            · exact go false _
            · exact stop false
        | true =>
            have next : symbol + symbol + 1 = 2 * symbol + true.toNat := by
              rw [Bool.toNat_true]
              omega
            simp only [if_true, next]
            split_ifs
            · exact stop true
            · exact go true _
            · exact stop true
      rw [matchedBits, Dialogue.bind_assoc, tells_bit_bind]
      constructor
      · rintro ⟨b, rest, rfl, tells⟩
        obtain ⟨value, small, rfl, rfl, rfl⟩ := (step b).mp tells
        exact ⟨_, top_bit_lt small b, symbol_onward symbol count value b,
          (bitsDown_cons small b).symm, rfl⟩
      · rintro ⟨_, small, rfl, rfl, rfl⟩
        obtain ⟨b, value, fits, rfl⟩ := exists_top_bit small
        exact ⟨b, bitsDown count value, bitsDown_cons fits b, (step b).mpr
          ⟨value, fits, (symbol_onward symbol count value b).symm, rfl, rfl⟩⟩

end Numbers

end AuxLoader.LzmaDecode
