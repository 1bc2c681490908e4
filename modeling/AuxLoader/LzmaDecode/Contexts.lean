import Mathlib.Data.Nat.Bitwise
import AuxLoader.LzmaDecode.Rounds

namespace AuxLoader.LzmaDecode

open Data

/-! The probability that each bit of a packet is coded with, and that the
control flow asks for these. -/

/-- An index of the table of probabilities; a direct bit has none. -/
abbrev Context := Option Nat

/-- A tree has a probability at each node. Its root is 1, and below a node are
its double and the number after that. -/
def treeContexts (probs : Nat) : Nat → List Bool → List Context
  | _, [] => []
  | node, b :: rest =>
      some (probs + node) :: treeContexts probs (2 * node + b.toNat) rest

def lenContexts (probs posState len : Nat) : List Context :=
  if len < kLenNumLowSymbols then
    some (probs + lenChoice) ::
      treeContexts (probs + lenLow + posState * 2 ^ kLenNumLowBits) 1
        (bitsDown kLenNumLowBits len)
  else if len < kLenNumLowSymbols + kLenNumMidSymbols then
    some (probs + lenChoice) :: some (probs + lenChoice2) ::
      treeContexts (probs + lenMid + posState * 2 ^ kLenNumMidBits) 1
        (bitsDown kLenNumMidBits (len - kLenNumLowSymbols))
  else
    some (probs + lenChoice) :: some (probs + lenChoice2) ::
      treeContexts (probs + lenHigh) 1
        (bitsDown kLenNumHighBits
          (len - (kLenNumLowSymbols + kLenNumMidSymbols)))

/-- The first slots have trees of their own, and the others share one for their
last bits. -/
def footerContexts (posSlot distance : Nat) : List Context :=
  let numDirectBits := posSlot / 2 - 1
  if posSlot < kStartPosModelIndex then
    []
  else if posSlot < kEndPosModelIndex then
    treeContexts
      (specPos + (2 + posSlot % 2) * 2 ^ numDirectBits - posSlot - 1) 1
      (bitsUp numDirectBits (distance % 2 ^ numDirectBits))
  else
    List.replicate (numDirectBits - kNumAlignBits) none ++
      treeContexts align 1 (bitsUp kNumAlignBits (distance % 2 ^ kNumAlignBits))

def distanceContexts (len distance : Nat) : List Context :=
  treeContexts
    (posSlotProbs + min len (kNumLenToPosStates - 1) * 2 ^ kNumPosSlotBits) 1
    (bitsDown kNumPosSlotBits (posSlotOf distance)) ++
  footerContexts (posSlotOf distance) distance

/-- As long as a literal agrees with the byte that a match would have gone on
with, its bits have probabilities for this byte. -/
def matchedContexts (probs : Nat) :
    Nat → (matched : List Bool) → List Bool → List Context
  | node, m :: matched, b :: rest =>
      some (probs + 0x100 * (1 + m.toNat) + node) ::
        if b = m then
          matchedContexts probs (2 * node + b.toNat) matched rest
        else
          treeContexts probs (2 * node + b.toNat) rest
  | _, _, _ => []

namespace History

variable (properties : CLzmaProperties) (h : History)

def posState : Nat := h.out.length % 2 ^ properties.pb

/-- The last bits of the position and the first of the byte before it select the
tree of a literal. -/
def literalProbs : Nat :=
  literal + lzmaLitSize *
    (h.out.length % 2 ^ properties.lp * 2 ^ properties.lc +
      (h.out.getLastD 0).toNat / 2 ^ (8 - properties.lc))

def literalContexts (byte : Byte) : List Context :=
  let probs := h.literalProbs properties
  if h.state < kNumLitStates then
    treeContexts probs 1 (bitsDown 8 byte.toNat)
  else
    matchedContexts probs 1
      (bitsDown 8
        (h.out.getD (h.out.length - h.reps.rep0.toNat) 0).toNat)
      (bitsDown 8 byte.toNat)

def isMatchContext : Context :=
  some (isMatch + h.state * 2 ^ kNumPosBitsMax + h.posState properties)

def isRep0LongContext : Context :=
  some (isRep0Long + h.state * 2 ^ kNumPosBitsMax + h.posState properties)

def simpleContexts (distance : Word) (len : Nat) : List Context :=
  h.isMatchContext properties :: some (isRep + h.state) ::
    (lenContexts lenCoder (h.posState properties) (len - kMatchMinLen) ++
      distanceContexts (len - kMatchMinLen) (distance - 1).toNat)

def longRepContexts : Fin 4 → List Context
  | 0 => [some (isRepG0 + h.state), h.isRep0LongContext properties]
  | 1 => [some (isRepG0 + h.state), some (isRepG1 + h.state)]
  | 2 | 3 =>
      [some (isRepG0 + h.state), some (isRepG1 + h.state),
        some (isRepG2 + h.state)]

end History

def Packet.contexts (properties : CLzmaProperties) (h : History) :
    Packet → List Context
  | .literal byte =>
      h.isMatchContext properties :: h.literalContexts properties byte
  | .simple distance len => h.simpleContexts properties distance len
  | .shortRep =>
      [h.isMatchContext properties, some (isRep + h.state),
        some (isRepG0 + h.state), h.isRep0LongContext properties]
  | .longRep index len =>
      h.isMatchContext properties :: some (isRep + h.state) ::
        (h.longRepContexts properties index ++
          lenContexts repLenCoder (h.posState properties) (len - kMatchMinLen))

def streamContexts (properties : CLzmaProperties) :
    History → List Packet → Ending → List Context
  | _, [], none => []
  | h, [], some len => h.simpleContexts properties 0 len
  | h, packet :: rest, ending =>
      packet.contexts properties h ++
        streamContexts properties (packet.apply h) rest ending

/-! What the control flow asks for. -/

/-- The contexts of the bits, in the run that is told them. -/
def asked {α : Type} : Decoding α → List Bool → List Byte → List Context
  | .done _, _, _ => []
  | .ask (.bit _) _, [], _ => []
  | .ask (.bit prob) next, b :: rest, out =>
      some prob :: asked (next b) rest out
  | .ask .directBit _, [], _ => []
  | .ask .directBit next, b :: rest, out => none :: asked (next b) rest out
  | .ask (.load index) next, bits, out =>
      match out[index.toNat]? with
      | some byte => asked (next byte) bits out
      | none => []
  | .ask (.store _ byte) next, bits, out =>
      asked (next ()) bits (out ++ [byte])
  | .ask .dataError _, _, _ => []

section Asked

variable {α β : Type} {bits first rest : List Bool} {out mid : List Byte}

theorem asked_load_some {index : Word} {next : Byte → Decoding α} {byte : Byte}
    (present : out[index.toNat]? = some byte) :
    asked (.ask (.load index) next) bits out = asked (next byte) bits out := by
  rw [asked, present]

theorem asked_bind {program : Decoding α} {follow : α → Decoding β} {a : α}
    (tells : Tells program first out a mid) :
    asked (program >>= follow) (first ++ rest) out =
      asked program first out ++ asked (follow a) rest mid := by
  induction program generalizing first out with
  | done result =>
      obtain ⟨rfl, rfl, rfl⟩ := tells
      rfl
  | ask question next ih =>
      cases question with
      | bit prob =>
          obtain ⟨b, later, rfl, tells⟩ := tells
          exact congrArg (some prob :: ·) (ih b tells)
      | directBit =>
          obtain ⟨b, later, rfl, tells⟩ := tells
          exact congrArg (none :: ·) (ih b tells)
      | load index =>
          obtain ⟨byte, present, tells⟩ := tells
          rw [Dialogue.ask_bind, asked_load_some present,
            asked_load_some present]
          exact ih byte tells
      | store index byte =>
          obtain ⟨_, tells⟩ := tells
          exact ih () tells
      | dataError => exact tells.elim

/-- Without bits nothing is asked for. -/
@[simp] theorem asked_nil (program : Decoding α) :
    asked program [] out = [] := by
  induction program generalizing out with
  | done result => rfl
  | ask question next ih =>
      cases question with
      | bit prob => rfl
      | directBit => rfl
      | load index =>
          rw [asked]
          split
          · exact ih _
          · rfl
      | store index byte => exact ih ()
      | dataError => rfl

/-- What comes after the last bit asks for nothing. -/
theorem asked_bind_last {program : Decoding α} {follow : α → Decoding β} {a : α}
    (tells : Tells program bits out a mid) :
    asked (program >>= follow) bits out = asked program bits out := by
  have split := @asked_bind α β bits [] out mid program follow a tells
  rwa [List.append_nil, asked_nil, List.append_nil] at split

theorem asked_bit_bind {prob : Nat} {follow : Bool → Decoding β} {b : Bool} :
    asked (bit prob >>= follow) (b :: rest) out =
      some prob :: asked (follow b) rest out := rfl

end Asked

section Numbers

variable {bits : List Bool} {out : List Byte} {prob : Nat}

theorem asked_getBit {mi : Nat} {b : Bool} :
    asked (getBit prob mi) [b] out = [some prob] := by
  rw [getBit, asked_bit_bind]
  cases b <;> rfl

theorem asked_bitTree {levels node : Nat} (long : bits.length = levels) :
    asked (bitTree prob levels node) bits out =
      treeContexts prob node bits := by
  induction levels generalizing bits node with
  | zero =>
      rw [List.length_eq_zero_iff.mp long]
      rfl
  | succ levels ih =>
      obtain ⟨b, rest, rfl⟩ := List.exists_cons_of_length_eq_add_one long
      have first : Tells (getBit (prob + node) node) [b] out _ out :=
        tells_getBit.mpr ⟨b, rfl, rfl, rfl⟩
      rw [bitTree]
      refine (asked_bind first).trans ?_
      rw [asked_getBit, ih (Nat.succ_injective long)]
      rfl

theorem length_bitsDown (count value : Nat) :
    (bitsDown count value).length = count := by
  induction count generalizing value with
  | zero => rfl
  | succ count ih => rw [bitsDown, List.length_cons, ih]

theorem length_bitsUp (count value : Nat) :
    (bitsUp count value).length = count := by
  induction count generalizing value with
  | zero => rfl
  | succ count ih => rw [bitsUp, List.length_cons, ih]

theorem asked_rangeDecoderBitTreeDecode {numLevels value : Nat}
    (small : value < 2 ^ numLevels) :
    asked (rangeDecoderBitTreeDecode prob numLevels) (bitsDown numLevels value)
        out = treeContexts prob 1 (bitsDown numLevels value) := by
  rw [rangeDecoderBitTreeDecode, asked_bind_last
    (tells_bitTree.mpr ⟨value, small, rfl, rfl, rfl⟩)]
  exact asked_bitTree (length_bitsDown numLevels value)

theorem asked_reverseBits {count node : Nat} {i rep0 : Word}
    (long : bits.length = count) :
    asked (reverseBits prob count i node rep0) bits out =
      treeContexts prob node bits := by
  induction count generalizing bits node i rep0 with
  | zero =>
      rw [List.length_eq_zero_iff.mp long]
      rfl
  | succ count ih =>
      obtain ⟨b, rest, rfl⟩ := List.exists_cons_of_length_eq_add_one long
      have fewer : rest.length = count := Nat.succ_injective long
      rw [reverseBits, asked_bit_bind, treeContexts]
      cases b with
      | false =>
          have next : node <<< 1 = 2 * node + false.toNat := by
            rw [Nat.shiftLeft_eq, Bool.toNat_false]
            omega
          rw [← next]
          exact congrArg _ (ih fewer)
      | true =>
          have next : node + node + 1 = 2 * node + true.toNat := by
            rw [Bool.toNat_true]
            omega
          rw [← next]
          exact congrArg _ (ih fewer)

theorem asked_directBits {count : Nat} {rep0 : Word}
    (long : bits.length = count) :
    asked (directBits count rep0) bits out = List.replicate count none := by
  induction count generalizing bits rep0 with
  | zero =>
      rw [List.length_eq_zero_iff.mp long]
      rfl
  | succ count ih =>
      obtain ⟨b, rest, rfl⟩ := List.exists_cons_of_length_eq_add_one long
      have fewer : rest.length = count := Nat.succ_injective long
      rw [List.replicate_succ]
      cases b with
      | false => exact congrArg _ (ih fewer)
      | true => exact congrArg _ (ih fewer)

/-! Lengths and distances. -/

theorem asked_decodeLen {posState len : Nat} (small : len < 272) :
    asked (decodeLen prob posState) (lenBits len) out =
      lenContexts prob posState len := by
  have low : kLenNumLowSymbols = 8 := rfl
  have mid : kLenNumMidSymbols = 8 := rfl
  rw [decodeLen, lenBits, lenContexts]
  split_ifs with first second
  · rw [asked_bit_bind, ← Nat.shiftLeft_eq]
    exact congrArg _ (asked_rangeDecoderBitTreeDecode first)
  · have below : len - kLenNumLowSymbols < 2 ^ kLenNumMidBits := by
      rw [show kLenNumMidBits = 3 from rfl]
      omega
    have tree := @asked_rangeDecoderBitTreeDecode out
      (prob + lenMid + posState <<< kLenNumMidBits) _ _ below
    rw [asked_bit_bind, ← Nat.shiftLeft_eq, ← tree]
    exact congrArg (some _ :: some _ :: ·) (asked_bind_last
      (tells_rangeDecoderBitTreeDecode.mpr ⟨below, rfl, rfl⟩))
  · have below : len - (kLenNumLowSymbols + kLenNumMidSymbols) <
        2 ^ kLenNumHighBits := by
      rw [show kLenNumHighBits = 8 from rfl]
      omega
    have tree :=
      @asked_rangeDecoderBitTreeDecode out (prob + lenHigh) _ _ below
    rw [asked_bit_bind, ← tree]
    exact congrArg (some _ :: some _ :: ·) (asked_bind_last
      (tells_rangeDecoderBitTreeDecode.mpr ⟨below, rfl, rfl⟩))

theorem asked_distanceFooter {posSlot distance : Nat} (below : posSlot < 64) :
    asked (distanceFooter posSlot) (footerBits posSlot distance) out =
      footerContexts posSlot distance := by
  have half : posSlot >>> 1 - 1 = posSlot / 2 - 1 := by
    rw [Nat.shiftRight_one]
  have highest : (2 ||| (BitVec.ofNat 32 posSlot &&& 1) : Word) =
      BitVec.ofNat 32 (2 + posSlot % 2) := by
    interval_cases posSlot <;> rfl
  unfold distanceFooter footerBits footerContexts
  simp only [half, highest]
  by_cases modelled : posSlot < kStartPosModelIndex
  · rw [if_pos modelled, if_pos modelled, asked_nil]
  rw [if_pos (Nat.not_lt.mp modelled), if_neg modelled, if_neg modelled]
  by_cases special : posSlot < kEndPosModelIndex
  · have base : (BitVec.ofNat 32 (2 + posSlot % 2) <<<
        (posSlot / 2 - 1)).toNat =
          (2 + posSlot % 2) * 2 ^ (posSlot / 2 - 1) := by
      rw [ofNat_shiftLeft, BitVec.toNat_ofNat]
      exact Nat.mod_eq_of_lt
        (slotDistance_lt below (Nat.two_pow_pos (posSlot / 2 - 1)))
    rw [if_pos special, if_pos special, if_pos special, base]
    exact asked_reverseBits (length_bitsUp _ _)
  · rw [if_neg special, if_neg special, if_neg special]
    rw [show kEndPosModelIndex = 14 from rfl] at special
    have high : distance % 2 ^ (posSlot / 2 - 1) / 2 ^ kNumAlignBits <
        2 ^ (posSlot / 2 - 1 - kNumAlignBits) := by
      have align : kNumAlignBits = 4 := rfl
      refine Nat.div_lt_of_lt_mul ?_
      rw [← Nat.pow_add, Nat.add_sub_cancel' (by omega)]
      exact Nat.mod_lt _ (Nat.two_pow_pos _)
    rw [asked_bind (tells_directBits.mpr ⟨_, high, rfl, rfl, rfl⟩),
      asked_directBits (length_bitsDown _ _),
      asked_reverseBits (length_bitsUp _ _)]

theorem asked_decodeDistance {len : Nat} {distance : Word} :
    asked (decodeDistance len) (distanceBits distance.toNat) out =
      distanceContexts len distance.toNat := by
  have below := posSlotOf_lt distance
  have row : (if len < kNumLenToPosStates then len
      else kNumLenToPosStates - 1) = min len (kNumLenToPosStates - 1) := by
    have states : kNumLenToPosStates = 4 := rfl
    split <;> omega
  rw [decodeDistance, distanceBits, row,
    asked_bind (tells_rangeDecoderBitTreeDecode.mpr ⟨below, rfl, rfl⟩),
    asked_rangeDecoderBitTreeDecode below, asked_distanceFooter below,
    distanceContexts, Nat.shiftLeft_eq]

/-! Literals. -/

theorem asked_literalBits {rounds count node : Nat} (enough : count ≤ rounds)
    (begun : Begun count node) (long : bits.length = count) :
    asked (literalBits prob rounds node) bits out =
      treeContexts prob node bits := by
  induction count generalizing rounds node bits with
  | zero =>
      rw [List.length_eq_zero_iff.mp long]
      exact asked_nil _
  | succ count ih =>
      obtain ⟨b, rest, rfl⟩ := List.exists_cons_of_length_eq_add_one long
      obtain ⟨rounds, rfl⟩ : ∃ fewer, rounds = fewer + 1 :=
        Nat.exists_eq_add_of_le' (by omega)
      have first : Tells (getBit (prob + node) node) [b] out _ out :=
        tells_getBit.mpr ⟨b, rfl, rfl, rfl⟩
      rw [literalBits, if_pos begun.lt]
      refine (asked_bind first).trans ?_
      rw [asked_getBit, ih (by omega) (begun.onward b)
        (Nat.succ_injective long)]
      rfl

/-- The bit of the byte that is to be agreed with, and what is left of it. -/
theorem matchBit_eq {count matchByte value : Nat} {m : Bool}
    (few : count + 1 ≤ 8) (small : value < 2 ^ count)
    (low : matchByte % 2 ^ 8 =
      (m.toNat * 2 ^ count + value) * 2 ^ (8 - (count + 1))) :
    matchByte <<< 1 &&& 0x100 = 0x100 * m.toNat ∧
      matchByte <<< 1 % 2 ^ 8 = value * 2 ^ (8 - count) := by
  have bit := m.toNat_lt
  have seven : 2 ^ count * 2 ^ (8 - (count + 1)) = 128 := by
    rw [← Nat.pow_add, show count + (8 - (count + 1)) = 7 by omega]
  have part : value * 2 ^ (8 - (count + 1)) < 128 := by
    rw [← seven]
    exact Nat.mul_lt_mul_of_pos_right small (Nat.two_pow_pos _)
  have double : value * 2 ^ (8 - count) =
      value * 2 ^ (8 - (count + 1)) * 2 := by
    rw [show 8 - count = 8 - (count + 1) + 1 by omega, Nat.pow_succ,
      Nat.mul_assoc]
  rw [Nat.add_mul, Nat.mul_assoc, seven] at low
  rw [double, Nat.shiftLeft_eq]
  generalize value * 2 ^ (8 - (count + 1)) = rest at part low ⊢
  constructor
  · have top : matchByte * 2 ^ 1 / 2 ^ 8 % 2 = m.toNat := by omega
    rw [show (0x100 : Nat) = 2 ^ 8 from rfl, Nat.and_two_pow,
      Nat.testBit_eq_decide_div_mod_eq, top, Nat.mul_comm]
    cases m <;> rfl
  · omega

theorem matchedContexts_nil (node : Nat) (matched : List Bool) :
    matchedContexts prob node matched [] = [] := by
  cases matched <;> rfl

/-- Up to the first bit that does not agree. -/
theorem asked_matchedBits {count matchByte value node : Nat} (few : count ≤ 8)
    (begun : Begun count node) (small : value < 2 ^ count)
    (low : matchByte % 2 ^ 8 = value * 2 ^ (8 - count))
    (long : bits.length = count) :
    asked (matchedBits prob count matchByte node >>= literalBits prob 8) bits
        out =
      matchedContexts prob node (bitsDown count value) bits := by
  induction count generalizing matchByte value node bits with
  | zero =>
      rw [List.length_eq_zero_iff.mp long, asked_nil]
      rfl
  | succ count ih =>
      obtain ⟨b, rest, rfl⟩ := List.exists_cons_of_length_eq_add_one long
      have fewer : rest.length = count := Nat.succ_injective long
      obtain ⟨m, value, inside, rfl⟩ := exists_top_bit small
      obtain ⟨bit, onward⟩ := matchBit_eq few inside low
      have go := @ih rest (matchByte <<< 1) value (2 * node + b.toNat)
        (by omega) (begun.onward b) inside onward fewer
      have stop := @asked_literalBits rest out prob 8 count
        (2 * node + b.toNat) (by omega) (begun.onward b) fewer
      -- A literal that is complete has no bit left, agreed with or not.
      have full (complete : ¬ 2 * node + b.toNat < 0x100) : rest = [] := by
        cases count with
        | zero => exact List.length_eq_zero_iff.mp fewer
        | succ count => exact absurd (begun.onward b).lt complete
      rw [bitsDown_cons inside, matchedContexts, matchedBits,
        Dialogue.bind_assoc, asked_bit_bind, bit]
      refine congrArg₂ List.cons (congrArg some (by omega)) ?_
      cases b with
      | false =>
          have next : node <<< 1 = 2 * node + false.toNat := by
            rw [Nat.shiftLeft_eq, Bool.toNat_false]
            omega
          simp only [Bool.false_eq_true, if_false, next]
          cases m with
          | false =>
              rw [if_neg (by decide), if_pos rfl]
              split
              next => exact go
              next complete =>
                rw [full complete, asked_nil, matchedContexts_nil]
          | true =>
              rw [if_pos (by decide), if_neg (by decide)]
              exact stop
      | true =>
          have next : node + node + 1 = 2 * node + true.toNat := by
            rw [Bool.toNat_true]
            omega
          simp only [if_true, next]
          cases m with
          | false =>
              rw [if_pos (by decide), if_neg (by decide)]
              exact stop
          | true =>
              rw [if_neg (by decide), if_pos rfl]
              split
              next => exact go
              next complete =>
                rw [full complete, asked_nil, matchedContexts_nil]

end Numbers

/-! One round. -/

section Round

variable {properties : CLzmaProperties} {outSize : Word} {h : History}

theorem toNat_and_mask {position bits : Nat} (small : position < 2 ^ 32)
    (few : bits ≤ 4) :
    (BitVec.ofNat 32 position &&& ((1 : Word) <<< bits - 1)).toNat =
      position % 2 ^ bits := by
  have mask : ((1 : Word) <<< bits - 1).toNat = 2 ^ bits - 1 := by
    interval_cases bits <;> rfl
  rw [BitVec.toNat_and, mask, BitVec.toNat_ofNat, Nat.mod_eq_of_lt small,
    Nat.and_two_pow_sub_one_eq_mod]

theorem length_lt (room : h.out.length < outSize.toNat) :
    h.out.length < 2 ^ 32 :=
  room.trans outSize.isLt

theorem posState_vars (valid : properties.Valid)
    (room : h.out.length < outSize.toNat) :
    (h.vars.nowPos &&& posStateMask properties).toNat =
      h.posState properties :=
  toNat_and_mask (length_lt room) valid.pb

theorem literalProbs_vars (valid : properties.Valid)
    (room : h.out.length < outSize.toNat) :
    literalProbs properties h.vars = h.literalProbs properties := by
  have position : (h.vars.nowPos &&& literalPosMask properties).toNat =
      h.out.length % 2 ^ properties.lp :=
    toNat_and_mask (length_lt room) valid.lp
  rw [literalProbs, History.literalProbs, position, Nat.shiftLeft_eq,
    Nat.shiftRight_eq_div_pow]
  rfl

theorem asked_symbol {prob : Nat} (sound : h.Sound)
    (room : h.out.length < outSize.toNat) (byte : Byte) :
    asked (matchedSymbol prob h.vars >>= literalBits prob 8)
        (bitsDown 8 byte.toNat) h.out =
      if h.state < kNumLitStates then
        treeContexts prob 1 (bitsDown 8 byte.toNat)
      else
        matchedContexts prob 1
          (bitsDown 8
            (h.out.getD (h.out.length - h.reps.rep0.toNat) 0).toNat)
          (bitsDown 8 byte.toNat) := by
  have begun : Begun 8 1 := ⟨by decide, by decide⟩
  have long := length_bitsDown 8 byte.toNat
  unfold matchedSymbol
  by_cases early : h.state < kNumLitStates
  · have matched : ¬ h.vars.state ≥ kNumLitStates := Nat.not_le.mpr early
    rw [if_neg matched, if_pos early]
    exact asked_literalBits le_rfl begun long
  · have late : h.vars.state ≥ kNumLitStates := Nat.not_lt.mp early
    have some := sound.matched late
    have first := sound.rep0
    have far : h.vars.rep0.toNat ≤ h.out.length := by omega
    have present := (tells_load_back (Nat.le_of_lt room) first.1 far).mpr rfl
    rw [if_pos late, if_neg early, Dialogue.bind_assoc]
    refine (asked_load_some present).trans ?_
    refine asked_matchedBits le_rfl begun (BitVec.isLt _) ?_ long
    rw [Nat.mod_eq_of_lt (BitVec.isLt _), Nat.sub_self, Nat.pow_zero,
      Nat.mul_one]

theorem asked_decodeLiteral (valid : properties.Valid) (sound : h.Sound)
    (room : h.out.length < outSize.toNat) (byte : Byte) :
    asked (decodeLiteral properties h.vars) (bitsDown 8 byte.toNat) h.out =
      h.literalContexts properties byte := by
  unfold decodeLiteral
  simp only
  rw [← Dialogue.bind_assoc, asked_bind_last
    ((tells_symbol sound (Nat.le_of_lt room)).mpr
      ⟨byte.toNat, byte.isLt, rfl, rfl, rfl⟩),
    asked_symbol sound room, literalProbs_vars valid room]
  rfl

section Match

variable {prob posState len : Nat} {v : Vars} {out : List Byte}

theorem asked_decodeMatch_known (small : len < 272) :
    asked (decodeMatch outSize prob posState v) (lenBits len) out =
      lenContexts prob posState len := by
  rw [decodeMatch, asked_bind_last (tells_decodeLen.mpr ⟨small, rfl, rfl⟩),
    asked_decodeLen small]

theorem asked_decodeMatch_new (new : v.state < 4) (small : len < 272)
    (distance : Word) :
    asked (decodeMatch outSize prob posState v)
        (lenBits len ++ distanceBits distance.toNat) out =
      lenContexts prob posState len ++
        distanceContexts len distance.toNat := by
  rw [decodeMatch, asked_bind (tells_decodeLen.mpr ⟨small, rfl, rfl⟩),
    asked_decodeLen small]
  simp only [if_pos new]
  rw [asked_bind_last (tells_decodeDistance.mpr ⟨rfl, rfl⟩),
    asked_decodeDistance]

end Match

theorem asked_simple (valid : properties.Valid)
    (room : h.out.length < outSize.toNat) {len : Nat}
    (legal : kMatchMinLen ≤ len ∧ len ≤ kMatchMaxLen) (distance : Word) :
    asked (decodeRound properties outSize h.vars) (simpleBits distance len)
        h.out =
      h.simpleContexts properties distance len := by
  have min : kMatchMinLen = 2 := rfl
  have max : kMatchMaxLen = 273 := rfl
  have early : (if h.vars.state < kNumLitStates then 0 else 3) < 4 := by
    split <;> decide
  have new := @asked_decodeMatch_new outSize lenCoder (h.posState properties)
    (len - kMatchMinLen) { h.vars with
      rep3 := h.vars.rep2, rep2 := h.vars.rep1, rep1 := h.vars.rep0
      state := if h.vars.state < kNumLitStates then 0 else 3 } h.out early
    (by omega) (distance - 1)
  rw [decodeRound, simpleBits, asked_bit_bind, posState_vars valid room,
    Nat.shiftLeft_eq, History.simpleContexts, ← new]
  rfl

theorem asked_longRep (valid : properties.Valid)
    (room : h.out.length < outSize.toNat) {len : Nat}
    (legal : kMatchMinLen ≤ len ∧ len ≤ kMatchMaxLen) (index : Fin 4) :
    asked (decodeRound properties outSize h.vars)
        (Packet.bits (.longRep index len)) h.out =
      Packet.contexts properties h (.longRep index len) := by
  have min : kMatchMinLen = 2 := rfl
  have max : kMatchMaxLen = 273 := rfl
  have known (v : Vars) := @asked_decodeMatch_known outSize repLenCoder
    (h.posState properties) (len - kMatchMinLen) v h.out (by omega)
  rw [decodeRound, Packet.contexts, History.isMatchContext]
  simp only [posState_vars valid room, Nat.shiftLeft_eq]
  obtain ⟨index, bound⟩ := index
  interval_cases index
  · exact congrArg (_ :: _ :: _ :: _ :: ·) (known _)
  · exact congrArg (_ :: _ :: _ :: _ :: ·) (known _)
  · exact congrArg (_ :: _ :: _ :: _ :: _ :: ·) (known _)
  · exact congrArg (_ :: _ :: _ :: _ :: _ :: ·) (known _)

/-- A round asks for the contexts of its packet. -/
theorem asked_decodeRound (valid : properties.Valid) (sound : h.Sound)
    (room : h.out.length < outSize.toNat) {packet : Packet}
    (legal : packet.Legal h) :
    asked (decodeRound properties outSize h.vars) packet.bits h.out =
      packet.contexts properties h := by
  cases packet with
  | literal byte =>
      have below := Nat.le_of_lt room
      rw [decodeRound, Packet.bits, asked_bit_bind, posState_vars valid room,
        Nat.shiftLeft_eq, Packet.contexts,
        ← asked_decodeLiteral valid sound room]
      exact congrArg _ (asked_bind_last
        ((tells_decodeLiteral sound below).mpr ⟨byte, rfl, rfl, rfl⟩))
  | simple distance len => exact asked_simple valid room legal.2.2 distance
  | shortRep =>
      rw [decodeRound, Packet.contexts, History.isMatchContext,
        History.isRep0LongContext]
      simp only [posState_vars valid room, Nat.shiftLeft_eq]
      exact congrArg (_ :: _ :: _ :: _ :: ·) (asked_nil _)
  | longRep index len => exact asked_longRep valid room legal.2 index

end Round

/-! The main loop. -/

section Loop

variable {properties : CLzmaProperties} {outSize : Word} {h : History}
  {packets : List Packet} {ending : Ending}

/-- After a match that has been cut off there is no packet and no marker. -/
theorem streamContexts_full {rest : List Packet} (full : ¬ h.out.length ≤
      outSize.toNat) (packs : Packs outSize.toNat h rest)
    (legal : Ending.Legal outSize.toNat (expand rest h).out.length ending) :
    streamBits rest ending = [] ∧
      streamContexts properties h rest ending = [] := by
  cases rest with
  | nil =>
      cases ending with
      | none => exact ⟨rfl, rfl⟩
      | some len => exact absurd (Nat.le_of_lt legal.1) full
  | cons packet rest => exact absurd (Nat.le_of_lt packs.1) full

theorem asked_mainLoop {fuel : Nat} (valid : properties.Valid)
    (sound : h.Sound) (packs : Packs outSize.toNat h packets)
    (legal : Ending.Legal outSize.toNat (expand packets h).out.length ending)
    (enough : outSize.toNat - h.out.length < fuel) :
    asked (mainLoop properties outSize fuel h.vars)
        (streamBits packets ending) h.out =
      streamContexts properties h packets ending := by
  induction fuel generalizing h packets with
  | zero => exact absurd enough (Nat.not_lt_zero _)
  | succ fuel ih =>
      have more (room : h.out.length < outSize.toNat) :
          h.vars.nowPos < outSize := by
        rw [BitVec.lt_def, toNat_nowPos (Nat.le_of_lt room)]
        exact room
      cases packets with
      | nil =>
          cases ending with
          | none => exact asked_nil _
          | some len =>
              rw [mainLoop, if_pos (more legal.1)]
              exact (asked_bind_last ((tells_decodeRound sound legal.1).mpr
                (.inr ⟨len, legal.2, rfl, rfl, rfl⟩))).trans
                  (asked_simple valid legal.1 legal.2 0)
      | cons packet rest =>
          obtain ⟨room, allowed, onward⟩ := packs
          have tells := (@tells_decodeRound outSize packet.bits _ h properties
            _ sound room).mpr (.inl ⟨packet, rfl, allowed, rfl, rfl⟩)
          obtain ⟨next, longer, _⟩ :=
            tells.keeps (decodeRound_keeps valid sound room)
          have bits : streamBits (packet :: rest) ending =
              packet.bits ++ streamBits rest ending := by
            rw [streamBits, streamBits, List.flatMap_cons, List.append_assoc]
          rw [mainLoop, if_pos (more room), bits, asked_bind tells,
            asked_decodeRound valid sound room allowed, streamContexts]
          refine congrArg _ ?_
          by_cases fits : (packet.apply h).out.length ≤ outSize.toNat
          · rw [History.cut_eq fits] at next longer ⊢
            exact ih next onward legal (by omega)
          · obtain ⟨none, last⟩ := @streamContexts_full properties outSize
              (packet.apply h) ending rest fits onward legal
            rw [none, last, asked_nil]

/-- The decoder asks for each bit of the packets with its own probability. -/
theorem asked_mainLoop_start (valid : properties.Valid)
    (packs : Packs outSize.toNat .start packets)
    (legal : Ending.Legal outSize.toNat (expand packets .start).out.length
      ending) :
    asked (mainLoop properties outSize (outSize.toNat + 1) .start)
        (streamBits packets ending) [] =
      streamContexts properties .start packets ending :=
  @asked_mainLoop properties outSize .start packets ending _ valid
    Vars.start_sound packs legal (Nat.lt_succ_self outSize.toNat)

end Loop

end AuxLoader.LzmaDecode
