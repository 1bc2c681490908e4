import Mathlib.Logic.Function.Basic
import AuxLoader.Data.RangeCoder
import AuxLoader.LzmaDecode.Contexts

namespace AuxLoader.LzmaDecode

open Data RangeCoder

/-! The streams that `LzmaDecode` takes, and an encoder for them: each bit of
the packets in its context. -/

/-- `bound` is never beyond the range as long as the probability is fair. -/
def probSplit (p : BitVec 16) : Split where
  low range := min range (range / 2 ^ kNumBitModelTotalBits * p.toNat)
  high range := range - min range (range / 2 ^ kNumBitModelTotalBits * p.toNat)
  fits range := by omega

def directSplit : Split where
  low range := range / 2
  high range := range / 2
  fits range := by omega

def updated (b : Bool) (p : BitVec 16) : BitVec 16 :=
  if b then updateBit1 p else updateBit0 p

def halfProb : BitVec 16 := (kBitModelTotal >>> 1).setWidth 16

/-- The choices of bits in their contexts, each of which moves its
probability. -/
def choicesFrom : (Nat → BitVec 16) → List Context → List Bool →
    List (Split × Bool)
  | table, some prob :: contexts, b :: bits =>
      (probSplit (table prob), b) ::
        choicesFrom (Function.update table prob (updated b (table prob)))
          contexts bits
  | table, none :: contexts, b :: bits =>
      (directSplit, b) :: choicesFrom table contexts bits
  | _, _, _ => []

/-- The choices that stand for the packets. -/
def choicesOf (properties : CLzmaProperties) (packets : List Packet)
    (ending : Ending) : List (Split × Bool) :=
  choicesFrom (fun _ => halfProb)
    (streamContexts properties .start packets ending)
    (streamBits packets ending)

def kInitialRange : Nat := 0xFFFFFFFF

/-- The stream is one of the packets. Its first byte counts for nothing. -/
def Encodes (properties : CLzmaProperties) (packets : List Packet)
    (ending : Ending) (stream : List Byte) : Prop :=
  ∃ first code, stream.map BitVec.toNat = first :: code ∧
    Codes (2 ^ 8) kTopValue.toNat 4 kInitialRange
      (choicesOf properties packets ending) code

def encodePackets (properties : CLzmaProperties) (packets : List Packet)
    (ending : Ending) : List Byte :=
  0 :: (encode (2 ^ 8) kTopValue.toNat 4 kInitialRange
    (choicesOf properties packets ending)).map (BitVec.ofNat 8)

/-! Probabilities. -/

/-- The probability never gets to either end. -/
structure Fair (p : BitVec 16) : Prop where
  above : 31 ≤ p.toNat
  below : p.toNat ≤ 2017

theorem halfProb_fair : Fair halfProb := ⟨by decide, by decide⟩

theorem toNat_updateBit0 {p : BitVec 16} (fair : Fair p) :
    (updateBit0 p).toNat = p.toNat + (2048 - p.toNat) / 32 := by
  have below := fair.below
  have rest : kBitModelTotal - p.setWidth 32 =
      BitVec.ofNat 32 (2048 - p.toNat) := by
    rw [show kBitModelTotal = BitVec.ofNat 32 2048 from rfl]
    apply BitVec.eq_of_toNat_eq
    rw [BitVec.toNat_sub, BitVec.toNat_setWidth, BitVec.toNat_ofNat,
      BitVec.toNat_ofNat]
    omega
  have positive : (BitVec.ofNat 32 (2048 - p.toNat)).msb = false := by
    rw [BitVec.msb_eq_decide, BitVec.toNat_ofNat]
    simp
    omega
  rw [updateBit0, rest, BitVec.sshiftRight_eq_of_msb_false positive,
    BitVec.toNat_add, BitVec.toNat_setWidth, BitVec.toNat_ushiftRight,
    BitVec.toNat_ofNat, Nat.shiftRight_eq_div_pow,
    show kNumMoveBits = 5 from rfl]
  omega

theorem toNat_updateBit1 (p : BitVec 16) :
    (updateBit1 p).toNat = p.toNat - p.toNat / 32 := by
  have := p.isLt
  rw [updateBit1, BitVec.toNat_sub, BitVec.toNat_ushiftRight,
    Nat.shiftRight_eq_div_pow, show kNumMoveBits = 5 from rfl]
  omega

theorem Fair.updated {p : BitVec 16} (fair : Fair p) (b : Bool) :
    Fair (updated b p) := by
  obtain ⟨above, below⟩ := fair
  cases b with
  | false =>
      constructor
      · change 31 ≤ (updateBit0 p).toNat
        rw [toNat_updateBit0 ⟨above, below⟩]
        omega
      · change (updateBit0 p).toNat ≤ 2017
        rw [toNat_updateBit0 ⟨above, below⟩]
        omega
  | true =>
      constructor
      · change 31 ≤ (updateBit1 p).toNat
        rw [toNat_updateBit1]
        omega
      · change (updateBit1 p).toNat ≤ 2017
        rw [toNat_updateBit1]
        omega

theorem probSplit_low {p : BitVec 16} (fair : Fair p) (range : Nat) :
    (probSplit p).low range = range / 2048 * p.toNat ∧
      range / 2048 * p.toNat ≤ range := by
  have part : range / 2048 * p.toNat ≤ range / 2048 * 2048 :=
    Nat.mul_le_mul_left _ (Nat.le_trans fair.below (by decide))
  have whole := Nat.div_mul_le_self range 2048
  exact ⟨Nat.min_eq_right (part.trans whole), part.trans whole⟩

/-- Both parts of a range are left with a digit's share at least. -/
theorem probSplit_wide {p : BitVec 16} (fair : Fair p) :
    (probSplit p).Wide kTopValue.toNat (2 ^ 16) := by
  intro range large choice
  rw [show kTopValue.toNat = 2 ^ 24 from rfl] at large
  have low := (probSplit_low fair range).1
  have many : 2 ^ 13 ≤ range / 2048 := by omega
  have least : range / 2048 * 31 ≤ range / 2048 * p.toNat :=
    Nat.mul_le_mul_left _ fair.above
  have most : range / 2048 * p.toNat ≤ range / 2048 * 2017 :=
    Nat.mul_le_mul_left _ fair.below
  cases choice with
  | false =>
      change 2 ^ 16 ≤ (probSplit p).low range
      omega
  | true =>
      change 2 ^ 16 ≤ range - (probSplit p).low range
      omega

theorem directSplit_wide : directSplit.Wide kTopValue.toNat (2 ^ 16) := by
  intro range large choice
  rw [show kTopValue.toNat = 2 ^ 24 from rfl] at large
  cases choice with
  | false =>
      change 2 ^ 16 ≤ range / 2
      omega
  | true =>
      change 2 ^ 16 ≤ range / 2
      omega

theorem fair_update {table : Nat → BitVec 16}
    (fair : ∀ prob, Fair (table prob)) (prob : Nat) (b : Bool) (other : Nat) :
    Fair (Function.update table prob (updated b (table prob)) other) := by
  by_cases same : other = prob
  · rw [same, Function.update_self]
    exact (fair prob).updated b
  · rw [Function.update_of_ne same]
    exact fair other

theorem choicesFrom_wide {table : Nat → BitVec 16}
    (fair : ∀ prob, Fair (table prob)) (contexts : List Context)
    (bits : List Bool) :
    ∀ choice ∈ choicesFrom table contexts bits,
      choice.1.Wide kTopValue.toNat (2 ^ 16) := by
  induction contexts generalizing table bits with
  | nil => cases bits <;> nofun
  | cons context contexts ih =>
      cases bits with
      | nil => cases context <;> nofun
      | cons b bits =>
          cases context with
          | none =>
              exact List.forall_mem_cons.mpr ⟨directSplit_wide, ih fair bits⟩
          | some prob =>
              exact List.forall_mem_cons.mpr ⟨probSplit_wide (fair prob),
                ih (fair_update fair prob b) bits⟩

/-- The encoder's stream is one of the packets. -/
theorem encodePackets_encodes {properties : CLzmaProperties}
    {packets : List Packet} {ending : Ending} :
    Encodes properties packets ending
      (encodePackets properties packets ending) := by
  have wide := choicesFrom_wide (fun _ => halfProb_fair)
    (streamContexts properties .start packets ending)
    (streamBits packets ending)
  have enough : kTopValue.toNat ≤ 2 ^ 16 * 2 ^ 8 := by decide
  have width := @normalized_width_pos (2 ^ 8) _ _ _
    (fun range above => narrow_width_pos (by decide) enough wide above)
    enough kInitialRange (by decide)
  refine ⟨0, _, ?_, codes_encode width⟩
  rw [encodePackets, List.map_cons, List.map_map]
  refine congrArg (List.cons _) ((List.map_congr_left fun digit member =>
    ?_).trans (List.map_id _))
  have small := lt_of_mem_digits (by decide) member
  rw [Function.comp_apply, BitVec.toNat_ofNat, Nat.mod_eq_of_lt small, id_eq]

end AuxLoader.LzmaDecode
