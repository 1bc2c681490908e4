import Mathlib.Tactic.IntervalCases
import Mathlib.Tactic.Ring
import AuxLoader.LzmaDecode.Decoder

namespace AuxLoader.LzmaDecode

open Data

/-! What the control flow asks for, whatever it is answered: probabilities in
the table, bytes already output, and every byte of the output in turn. -/

/-- After `n` bytes of output. -/
def contract (numProbs : Nat) (outSize : Word) :
    Contract Question Question.Answer Nat where
  Allowed n
    | .bit prob => prob < numProbs
    | .directBit => True
    | .load index => index.toNat < n
    | .store index _ => index.toNat = n ∧ n < outSize.toNat
    | .dataError => True
  next n
    | .store _ _, _ => n + 1
    | .bit _, _ => n
    | .directBit, _ => n
    | .load _, _ => n
    | .dataError, _ => n

section Numbers

variable {numProbs : Nat} {outSize : Word} {n prob : Nat}

theorem bit_keeps (inside : prob < numProbs) :
    (bit prob).Keeps (contract numProbs outSize) (fun h _ => h = n) n :=
  ⟨inside, fun _ => rfl⟩

theorem getBit_keeps {mi : Nat} (inside : prob < numProbs) :
    (getBit prob mi).Keeps (contract numProbs outSize)
      (fun h res => h = n ∧ (res = 2 * mi ∨ res = 2 * mi + 1)) n := by
  refine (bit_keeps inside).bind ?_
  rintro h b rfl
  cases b with
  | false => exact ⟨rfl, .inl (by rw [Nat.shiftLeft_eq]; omega)⟩
  | true => exact ⟨rfl, .inr (by omega)⟩

/-- The last level has the highest numbers. -/
theorem bitTree_keeps {levels res : Nat}
    (room : 2 * prob + (res + 1) * 2 ^ levels ≤ 2 * numProbs) :
    (bitTree prob levels res).Keeps (contract numProbs outSize)
      (fun h value => h = n ∧ res * 2 ^ levels ≤ value ∧
        value < (res + 1) * 2 ^ levels) n := by
  induction levels generalizing res with
  | zero => exact ⟨rfl, by omega, by omega⟩
  | succ levels ih =>
      have positive := Nat.two_pow_pos levels
      have wide : (res + 1) * 2 ^ (levels + 1) =
          (2 * res + 1) * 2 ^ levels + 2 ^ levels := by ring
      have narrow : res * 2 ^ (levels + 1) = 2 * res * 2 ^ levels := by ring
      have more : res + 1 ≤ (res + 1) * 2 ^ levels :=
        Nat.le_mul_of_pos_right _ (Nat.two_pow_pos levels)
      have double : (res + 1) * 2 ^ (levels + 1) =
          2 * ((res + 1) * 2 ^ levels) := by ring
      refine (getBit_keeps (by omega)).bind ?_
      rintro h next ⟨rfl, rfl | rfl⟩
      · have part : (2 * res + 1) * 2 ^ levels ≤
            (res + 1) * 2 ^ (levels + 1) := by omega
        refine (ih (by omega)).mono ?_
        rintro g value ⟨rfl, above, below⟩
        exact ⟨rfl, by omega, by omega⟩
      · have part : (2 * res + 1 + 1) * 2 ^ levels =
            (res + 1) * 2 ^ (levels + 1) := by ring
        have start : 2 * res * 2 ^ levels ≤ (2 * res + 1) * 2 ^ levels :=
          Nat.mul_le_mul_right _ (by omega)
        refine (ih (by omega)).mono ?_
        rintro g value ⟨rfl, above, below⟩
        exact ⟨rfl, by omega, by omega⟩

theorem rangeDecoderBitTreeDecode_keeps {numLevels : Nat}
    (room : prob + 2 ^ numLevels ≤ numProbs) :
    (rangeDecoderBitTreeDecode prob numLevels).Keeps
      (contract numProbs outSize)
      (fun h value => h = n ∧ value < 2 ^ numLevels) n := by
  refine (bitTree_keeps (by omega)).bind ?_
  rintro h value ⟨rfl, above, below⟩
  refine ⟨rfl, ?_⟩
  rw [Nat.one_shiftLeft]
  omega

theorem reverseBits_keeps {count mi : Nat} {i rep0 : Word}
    (room : 2 * prob + (mi + 1) * 2 ^ count ≤ 2 * numProbs) :
    (reverseBits prob count i mi rep0).Keeps (contract numProbs outSize)
      (fun h _ => h = n) n := by
  induction count generalizing i mi rep0 with
  | zero => rfl
  | succ count ih =>
      have double : (mi + 1) * 2 ^ (count + 1) =
          2 * ((mi + 1) * 2 ^ count) := by ring
      have last : (mi + mi + 1 + 1) * 2 ^ count =
          (mi + 1) * 2 ^ (count + 1) := by ring
      have first : (mi <<< 1 + 1) * 2 ^ count ≤
          (mi + mi + 1 + 1) * 2 ^ count :=
        Nat.mul_le_mul_right _ (by rw [Nat.shiftLeft_eq]; omega)
      have more : mi + 1 ≤ (mi + 1) * 2 ^ count :=
        Nat.le_mul_of_pos_right _ (Nat.two_pow_pos count)
      refine (bit_keeps (by omega)).bind ?_
      rintro h b rfl
      cases b with
      | false => exact ih (by omega)
      | true => exact ih (by omega)

theorem directBits_keeps {count : Nat} {rep0 : Word} :
    (directBits count rep0).Keeps (contract numProbs outSize)
      (fun h _ => h = n) n := by
  induction count generalizing rep0 with
  | zero => rfl
  | succ count ih =>
      refine ⟨trivial, fun b => ?_⟩
      cases b with
      | false => exact ih
      | true => exact ih

theorem decodeLen_keeps {posState : Nat} (small : posState < 16)
    (room : prob + kNumLenProbs ≤ numProbs) :
    (decodeLen prob posState).Keeps (contract numProbs outSize)
      (fun h len => h = n ∧ len < 272) n := by
  have total : kNumLenProbs = 514 := by decide
  have mid : lenMid = 130 := by decide
  have high : lenHigh = 258 := by decide
  refine (bit_keeps (by rw [lenChoice]; omega)).bind ?_
  rintro h b rfl
  cases b with
  | false =>
      refine (rangeDecoderBitTreeDecode_keeps ?_).mono ?_
      · rw [show lenLow = 2 from rfl, show kLenNumLowBits = 3 from rfl,
          Nat.shiftLeft_eq]
        omega
      · rintro g len ⟨rfl, below⟩
        exact ⟨rfl, Nat.lt_trans below (by decide)⟩
  | true =>
      refine (bit_keeps (by rw [show lenChoice2 = 1 from rfl]; omega)).bind ?_
      rintro h b rfl
      cases b with
      | false =>
          refine (rangeDecoderBitTreeDecode_keeps ?_).bind ?_
          · rw [mid, show kLenNumMidBits = 3 from rfl, Nat.shiftLeft_eq]
            omega
          · rintro g len ⟨rfl, below⟩
            refine ⟨rfl, ?_⟩
            rw [show kLenNumLowSymbols = 8 from rfl]
            rw [show kLenNumMidBits = 3 from rfl] at below
            omega
      | true =>
          refine (rangeDecoderBitTreeDecode_keeps ?_).bind ?_
          · rw [high, show kLenNumHighBits = 8 from rfl]
            omega
          · rintro g len ⟨rfl, below⟩
            refine ⟨rfl, ?_⟩
            rw [show kLenNumLowSymbols = 8 from rfl,
              show kLenNumMidSymbols = 8 from rfl]
            rw [show kLenNumHighBits = 8 from rfl] at below
            omega

theorem distanceFooter_keeps {posSlot : Nat} (below : posSlot < 64)
    (room : literal ≤ numProbs) :
    (distanceFooter posSlot).Keeps (contract numProbs outSize)
      (fun h _ => h = n) n := by
  have total : literal = 1846 := by decide
  unfold distanceFooter
  split_ifs with modelled special
  · refine reverseBits_keeps ?_
    have table : specPos + ((2 ||| (BitVec.ofNat 32 posSlot &&& 1) : Word) <<<
        (posSlot >>> 1 - 1)).toNat - posSlot - 1 + 2 ^ (posSlot >>> 1 - 1) ≤
          1846 := by
      simp only [kStartPosModelIndex, kEndPosModelIndex] at modelled special
      interval_cases posSlot <;> decide
    omega
  · refine directBits_keeps.bind ?_
    rintro g rep0 rfl
    refine reverseBits_keeps ?_
    rw [show align = 802 from rfl, show kNumAlignBits = 4 from rfl]
    omega
  · rfl

theorem decodeDistance_keeps {len : Nat} (room : literal ≤ numProbs) :
    (decodeDistance len).Keeps (contract numProbs outSize)
      (fun h _ => h = n) n := by
  have total : literal = 1846 := by decide
  have slots : posSlotProbs = 432 := by decide
  refine (rangeDecoderBitTreeDecode_keeps ?_).bind ?_
  · rw [slots, show kNumPosSlotBits = 6 from rfl,
      show kNumLenToPosStates = 4 from rfl, Nat.shiftLeft_eq]
    split <;> omega
  · rintro h posSlot ⟨rfl, below⟩
    exact distanceFooter_keeps below room

theorem literalBits_keeps {rounds symbol : Nat}
    (room : prob + 0x100 ≤ numProbs) :
    (literalBits prob rounds symbol).Keeps (contract numProbs outSize)
      (fun h _ => h = n) n := by
  induction rounds generalizing symbol with
  | zero => rfl
  | succ rounds ih =>
      rw [literalBits]
      split
      · refine (getBit_keeps (by omega)).bind ?_
        rintro h symbol ⟨rfl, _⟩
        exact ih
      · rfl

theorem matchedBits_keeps {rounds matchByte symbol : Nat}
    (room : prob + lzmaLitSize ≤ numProbs) (small : symbol < 0x100) :
    (matchedBits prob rounds matchByte symbol).Keeps
      (contract numProbs outSize) (fun h _ => h = n) n := by
  have size : lzmaLitSize = 768 := rfl
  induction rounds generalizing matchByte symbol with
  | zero => rfl
  | succ rounds ih =>
      have flag : matchByte <<< 1 &&& 0x100 ≤ 0x100 := Nat.and_le_right
      refine (bit_keeps (by omega)).bind ?_
      rintro h b rfl
      cases b with
      | false =>
          simp only [Bool.false_eq_true, if_false]
          split_ifs with differs more
          · rfl
          · exact ih more
          · rfl
      | true =>
          simp only [if_true]
          split_ifs with differs more
          · rfl
          · exact ih more
          · rfl

end Numbers

end AuxLoader.LzmaDecode

namespace AuxLoader

/-- What `LzmaDecodeProperties` lets through. -/
structure CLzmaProperties.Valid (properties : CLzmaProperties) : Prop where
  lc : properties.lc ≤ 8
  lp : properties.lp ≤ 4
  pb : properties.pb ≤ 4

theorem propertiesOf_valid {prop0 : Data.Byte} (good : prop0.toNat < 225) :
    (propertiesOf prop0).Valid := by
  unfold propertiesOf
  constructor
  · dsimp only
    omega
  · dsimp only
    omega
  · dsimp only
    omega

theorem CLzmaProperties.numProbs_eq (properties : CLzmaProperties) :
    properties.numProbs =
      1846 + 768 * 2 ^ (properties.lc + properties.lp) := by
  rw [numProbs, Nat.shiftLeft_eq]

end AuxLoader

namespace AuxLoader.LzmaDecode

open Data

/-! One round. -/

/-- The distances lead back into the output, if there is any, and there is some
once there has been a match. -/
structure Vars.Sound (v : Vars) (n : Nat) : Prop where
  nowPos : v.nowPos.toNat = n
  state : v.state < kNumStates
  rep0 : 1 ≤ v.rep0.toNat ∧ v.rep0.toNat ≤ max 1 n
  rep1 : 1 ≤ v.rep1.toNat ∧ v.rep1.toNat ≤ max 1 n
  rep2 : 1 ≤ v.rep2.toNat ∧ v.rep2.toNat ≤ max 1 n
  rep3 : 1 ≤ v.rep3.toNat ∧ v.rep3.toNat ≤ max 1 n
  matched : kNumLitStates ≤ v.state → 0 < n

theorem Vars.start_sound : Vars.start.Sound 0 where
  nowPos := rfl
  state := by decide
  rep0 := by decide
  rep1 := by decide
  rep2 := by decide
  rep3 := by decide
  matched := by decide

section Round

variable {properties : CLzmaProperties} {outSize : Word} {n : Nat} {v : Vars}

theorem posState_lt (valid : properties.Valid) (v : Vars) :
    (v.nowPos &&& posStateMask properties).toNat < 16 := by
  have small : (posStateMask properties).toNat < 16 := by
    have pb := valid.pb
    unfold posStateMask
    generalize properties.pb = bits at pb ⊢
    interval_cases bits <;> decide
  rw [BitVec.toNat_and]
  exact Nat.lt_of_le_of_lt Nat.and_le_right small

theorem literalProbs_lt (valid : properties.Valid) (v : Vars) :
    literalProbs properties v + lzmaLitSize ≤ properties.numProbs := by
  have position : (v.nowPos &&& literalPosMask properties).toNat <
      2 ^ properties.lp := by
    have small : (literalPosMask properties).toNat < 2 ^ properties.lp := by
      have lp := valid.lp
      unfold literalPosMask
      generalize properties.lp = bits at lp ⊢
      interval_cases bits <;> decide
    rw [BitVec.toNat_and]
    exact Nat.lt_of_le_of_lt Nat.and_le_right small
  have previous : v.previousByte.toNat >>> (8 - properties.lc) <
      2 ^ properties.lc := by
    rw [Nat.shiftRight_eq_div_pow]
    refine Nat.div_lt_of_lt_mul ?_
    rw [← Nat.pow_add, Nat.sub_add_cancel valid.lc]
    exact v.previousByte.isLt
  have context : (v.nowPos &&& literalPosMask properties).toNat <<<
      properties.lc + v.previousByte.toNat >>> (8 - properties.lc) + 1 ≤
        2 ^ (properties.lc + properties.lp) := by
    have row : ((v.nowPos &&& literalPosMask properties).toNat + 1) *
        2 ^ properties.lc ≤ 2 ^ properties.lp * 2 ^ properties.lc :=
      Nat.mul_le_mul_right _ position
    rw [Nat.add_mul, ← Nat.pow_add] at row
    rw [Nat.shiftLeft_eq, Nat.add_comm properties.lc]
    omega
  have whole := Nat.mul_le_mul_left 768 context
  rw [literalProbs, properties.numProbs_eq, show literal = 1846 from rfl,
    show lzmaLitSize = 768 from rfl]
  omega

theorem load_keeps {numProbs : Nat} {index : Word} (before : index.toNat < n) :
    (load index).Keeps (contract numProbs outSize) (fun h _ => h = n) n :=
  ⟨before, fun _ => rfl⟩

theorem store_keeps {numProbs : Nat} {index : Word} {byte : Byte}
    (here : index.toNat = n) (room : n < outSize.toNat) :
    (store index byte).Keeps (contract numProbs outSize)
      (fun h _ => h = n + 1) n :=
  ⟨⟨here, room⟩, fun _ => rfl⟩

/-- What a round leads to that outputs something. -/
def Advances (outSize : Word) (n h : Nat) (v : Vars) : Prop :=
  v.Sound h ∧ n < h ∧ h ≤ outSize.toNat

theorem Vars.Sound.nowPos_succ (sound : v.Sound n)
    (room : n < outSize.toNat) : (v.nowPos + 1).toNat = n + 1 := by
  have here := sound.nowPos
  have top := outSize.isLt
  bv_omega

/-- The byte that a distance leads back to has been output. -/
theorem back_lt {nowPos distance : Word} (here : nowPos.toNat = n)
    (far : 1 ≤ distance.toNat ∧ distance.toNat ≤ n) :
    (nowPos - distance).toNat < n := by
  bv_omega

theorem literalState_lt {state : Nat} (small : state < kNumStates) :
    literalState state < kNumLitStates := by
  rw [show kNumStates = 12 from rfl] at small
  rw [show kNumLitStates = 7 from rfl, literalState]
  split_ifs <;> omega

theorem matchedSymbol_keeps {prob numProbs : Nat} (sound : v.Sound n)
    (room : prob + lzmaLitSize ≤ numProbs) :
    (matchedSymbol prob v).Keeps (contract numProbs outSize)
      (fun h _ => h = n) n := by
  unfold matchedSymbol
  split
  next late =>
    have some := sound.matched late
    have far := sound.rep0
    refine (load_keeps (back_lt sound.nowPos (by omega))).bind ?_
    rintro h matchByte rfl
    exact matchedBits_keeps room (by decide)
  next => rfl

theorem decodeLiteral_keeps (valid : properties.Valid) (sound : v.Sound n)
    (room : n < outSize.toNat) :
    (decodeLiteral properties v).Keeps (contract properties.numProbs outSize)
      (Advances outSize n) n := by
  have size : lzmaLitSize = 768 := rfl
  have table := literalProbs_lt valid v
  refine (matchedSymbol_keeps sound table).bind ?_
  rintro h symbol rfl
  refine (literalBits_keeps (by omega)).bind ?_
  rintro h symbol rfl
  refine (store_keeps sound.nowPos room).bind ?_
  rintro h _ rfl
  have state := literalState_lt sound.state
  exact ⟨{
    nowPos := sound.nowPos_succ room
    state := Nat.lt_trans state (by decide)
    rep0 := by have := sound.rep0; dsimp only; omega
    rep1 := by have := sound.rep1; dsimp only; omega
    rep2 := by have := sound.rep2; dsimp only; omega
    rep3 := by have := sound.rep3; dsimp only; omega
    matched := fun _ => Nat.succ_pos _ }, Nat.lt_succ_self _, room⟩

/-- Every byte that is copied has been output, the last of them in the same
match perhaps. -/
theorem copyByte_keeps {numProbs : Nat} (sound : v.Sound n)
    (far : v.rep0.toNat ≤ n) (room : n < outSize.toNat) :
    (copyByte v).Keeps (contract numProbs outSize)
      (fun h w => h = n + 1 ∧ w.Sound h ∧ w.rep0 = v.rep0) n := by
  refine (load_keeps (back_lt sound.nowPos ⟨sound.rep0.1, far⟩)).bind ?_
  rintro h previousByte rfl
  refine (store_keeps sound.nowPos room).bind ?_
  rintro h _ rfl
  exact ⟨rfl, {
    nowPos := sound.nowPos_succ room
    state := sound.state
    rep0 := by have := sound.rep0; dsimp only; omega
    rep1 := by have := sound.rep1; dsimp only; omega
    rep2 := by have := sound.rep2; dsimp only; omega
    rep3 := by have := sound.rep3; dsimp only; omega
    matched := fun _ => Nat.succ_pos _ }, rfl⟩

theorem decodeShortRep_keeps {numProbs : Nat} (sound : v.Sound n)
    (room : n < outSize.toNat) :
    (decodeShortRep v).Keeps (contract numProbs outSize) (Advances outSize n)
      n := by
  unfold decodeShortRep
  split
  next => exact ⟨trivial, nofun⟩
  next some =>
    have some : 0 < n := by
      have here := sound.nowPos
      bv_omega
    have far := sound.rep0
    have ready : Vars.Sound
        { v with state := if v.state < kNumLitStates then 9 else 11 } n :=
      { sound with
        state := by dsimp only; split <;> decide
        matched := fun _ => some }
    refine (copyByte_keeps ready (by dsimp only; omega) room).mono ?_
    rintro h w ⟨rfl, onward, _⟩
    exact ⟨onward, Nat.lt_succ_self _, room⟩

theorem copyMatch_keeps {numProbs len : Nat} (sound : v.Sound n)
    (far : v.rep0.toNat ≤ n) (room : n < outSize.toNat) :
    (copyMatch outSize (len + 1) v).Keeps (contract numProbs outSize)
      (Advances outSize n) n := by
  induction len generalizing n v with
  | zero =>
      refine (copyByte_keeps sound far room).bind ?_
      rintro h w ⟨rfl, onward, _⟩
      exact ⟨onward, Nat.lt_succ_self _, room⟩
  | succ len ih =>
      refine (copyByte_keeps sound far room).bind ?_
      rintro h w ⟨rfl, onward, same⟩
      split
      next more =>
        have inside : n + 1 < outSize.toNat := by
          rw [← onward.nowPos]
          exact more.2
        refine (ih onward (by rw [same]; omega) inside).mono ?_
        rintro h u ⟨sound, later, below⟩
        exact ⟨sound, by omega, below⟩
      next => exact ⟨onward, Nat.lt_succ_self _, room⟩

/-- The end of a round: a sound state with more output, or the end marker. -/
def RoundEnds (outSize : Word) (n h : Nat) : Vars ⊕ Word → Prop
  | .inl v => Advances outSize n h v
  | .inr nowPos => nowPos.toNat = h ∧ h = n

theorem finishMatch_keeps {numProbs len : Nat} (here : v.nowPos.toNat = n)
    (sound : v.rep0.toNat ≤ n → v.Sound n) (room : n < outSize.toNat) :
    (finishMatch outSize len v).Keeps (contract numProbs outSize)
      (RoundEnds outSize n) n := by
  unfold finishMatch
  simp only
  split
  next => exact ⟨trivial, nofun⟩
  next near =>
    have far : v.rep0.toNat ≤ n := by
      rw [← here]
      exact Nat.le_of_not_lt near
    refine (copyMatch_keeps (sound far) far room).bind ?_
    rintro h w advances
    exact advances

/-- The state of a match at an earlier distance is sound only if there is any
output, which is not known before its distance is checked. -/
theorem decodeMatch_keeps {numProbs prob posState : Nat}
    (here : v.nowPos.toNat = n)
    (sound : v.state < 4 ∨ v.rep0.toNat ≤ n → v.Sound n)
    (table : literal ≤ numProbs) (small : posState < 16)
    (inside : prob + kNumLenProbs ≤ literal) (room : n < outSize.toNat) :
    (decodeMatch outSize prob posState v).Keeps (contract numProbs outSize)
      (RoundEnds outSize n) n := by
  refine (decodeLen_keeps small (by omega)).bind ?_
  rintro h len ⟨rfl, _⟩
  split
  next simple =>
    have sound := sound (.inl simple)
    refine (decodeDistance_keeps table).bind ?_
    rintro g distance rfl
    simp only
    split
    next => exact ⟨here, rfl⟩
    next present =>
      refine finishMatch_keeps here (fun far => ?_) room
      have positive : 1 ≤ (distance + 1).toNat := by
        have : (distance + 1).toNat ≠ 0 := fun zero => present (by bv_omega)
        omega
      exact { sound with
        state := by
          change v.state + 7 < 12
          omega
        rep0 := ⟨positive, Nat.le_trans far (Nat.le_max_right 1 g)⟩
        matched := fun _ => Nat.lt_of_lt_of_le positive far }
  next => exact finishMatch_keeps here (fun far => sound (.inr far)) room

theorem decodeOlderRep_keeps {numProbs : Nat} (sound : v.Sound n)
    (table : literal ≤ numProbs) :
    (decodeOlderRep v).Keeps (contract numProbs outSize)
      (fun h w => h = n ∧ w.Sound n) n := by
  have state : v.state < 12 := sound.state
  have total : literal = 1846 := by decide
  have first : isRepG1 = 216 := by decide
  have second : isRepG2 = 228 := by decide
  refine (bit_keeps (by omega)).bind ?_
  rintro h b rfl
  cases b with
  | false =>
      exact ⟨rfl, { sound with rep0 := sound.rep1, rep1 := sound.rep0 }⟩
  | true =>
      refine (bit_keeps (by omega)).bind ?_
      rintro h b rfl
      cases b with
      | false =>
          exact ⟨rfl, { sound with
            rep0 := sound.rep2, rep1 := sound.rep0, rep2 := sound.rep1 }⟩
      | true =>
          exact ⟨rfl, { sound with
            rep0 := sound.rep3, rep1 := sound.rep0, rep2 := sound.rep1
            rep3 := sound.rep2 }⟩

theorem decodeRepMatch_keeps {numProbs posState : Nat} (sound : v.Sound n)
    (table : literal ≤ numProbs) (small : posState < 16)
    (room : n < outSize.toNat) :
    (decodeMatch outSize repLenCoder posState
      { v with state := repState v.state }).Keeps (contract numProbs outSize)
      (RoundEnds outSize n) n := by
  have states : 7 ≤ repState v.state ∧ repState v.state < 12 := by
    unfold repState
    split <;> decide
  refine decodeMatch_keeps sound.nowPos (fun reached => ?_) table small
    (by decide) room
  have far := reached.resolve_left (Nat.not_lt.mpr
    (Nat.le_trans (by decide) states.1))
  exact { sound with
    state := states.2
    matched := fun _ => Nat.lt_of_lt_of_le sound.rep0.1 far }

theorem decodeRound_keeps (valid : properties.Valid) (sound : v.Sound n)
    (room : n < outSize.toNat) :
    (decodeRound properties outSize v).Keeps
      (contract properties.numProbs outSize) (RoundEnds outSize n) n := by
  have small := posState_lt valid v
  have state : v.state < 12 := sound.state
  have total : literal = 1846 := by decide
  have table : literal ≤ properties.numProbs := by
    rw [properties.numProbs_eq]
    omega
  refine (bit_keeps ?_).bind ?_
  · rw [show isMatch = 0 from rfl, show kNumPosBitsMax = 4 from rfl,
      Nat.shiftLeft_eq]
    omega
  rintro h b rfl
  cases b with
  | false =>
      refine (decodeLiteral_keeps valid sound room).bind ?_
      rintro g w advances
      exact advances
  | true =>
      refine (bit_keeps (by rw [show isRep = 192 from rfl]; omega)).bind ?_
      rintro h b rfl
      cases b with
      | false =>
          have ready : Vars.Sound { v with
              rep3 := v.rep2, rep2 := v.rep1, rep1 := v.rep0
              state := if v.state < kNumLitStates then 0 else 3 } h :=
            { sound with
              rep1 := sound.rep0, rep2 := sound.rep1, rep3 := sound.rep2
              state := by dsimp only; split <;> decide
              matched := fun late => by
                dsimp only at late
                split at late <;> exact absurd late (by decide) }
          exact decodeMatch_keeps sound.nowPos (fun _ => ready) table small
            (by decide) room
      | true =>
          refine (bit_keeps (by rw [show isRepG0 = 204 from rfl]; omega)).bind
            ?_
          rintro h b rfl
          cases b with
          | false =>
              refine (bit_keeps ?_).bind ?_
              · rw [show isRep0Long = 240 from rfl,
                  show kNumPosBitsMax = 4 from rfl, Nat.shiftLeft_eq]
                omega
              rintro h b rfl
              cases b with
              | false =>
                  refine (decodeShortRep_keeps sound room).bind ?_
                  rintro g w advances
                  exact advances
              | true => exact decodeRepMatch_keeps sound table small room
          | true =>
              refine (decodeOlderRep_keeps sound table).bind ?_
              rintro h w ⟨rfl, onward⟩
              exact decodeRepMatch_keeps onward table small room

/-- A round outputs something or is the last, so that they do not run out. -/
theorem mainLoop_keeps (valid : properties.Valid) {fuel : Nat}
    (sound : v.Sound n) (below : n ≤ outSize.toNat)
    (enough : outSize.toNat - n < fuel) :
    (mainLoop properties outSize fuel v).Keeps
      (contract properties.numProbs outSize)
      (fun h result => ∃ nowPos, result = some nowPos ∧ nowPos.toNat = h ∧
        h ≤ outSize.toNat) n := by
  induction fuel generalizing n v with
  | zero => exact absurd enough (Nat.not_lt_zero _)
  | succ fuel ih =>
      rw [mainLoop]
      split
      next more =>
        have room : n < outSize.toNat := by
          rw [← sound.nowPos]
          exact more
        refine (decodeRound_keeps valid sound room).bind ?_
        rintro h result ends
        cases result with
        | inl w => exact ih ends.1 ends.2.2 (by have := ends.2.1; omega)
        | inr nowPos =>
            exact ⟨nowPos, rfl, ends.1, by rw [ends.2]; exact below⟩
      next => exact ⟨v.nowPos, rfl, sound.nowPos, below⟩

/-- The rounds that `LzmaDecode` allows for are enough. -/
theorem mainLoop_start_keeps (valid : properties.Valid) :
    (mainLoop properties outSize (outSize.toNat + 1) .start).Keeps
      (contract properties.numProbs outSize)
      (fun h result => ∃ nowPos, result = some nowPos ∧ nowPos.toNat = h ∧
        h ≤ outSize.toNat) 0 :=
  mainLoop_keeps valid Vars.start_sound (Nat.zero_le _) (Nat.lt_succ_self _)

end Round

end AuxLoader.LzmaDecode
