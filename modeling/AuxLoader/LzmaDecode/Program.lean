import AuxLoader.Data.Dialogue
import AuxLoader.Lzma

namespace AuxLoader.LzmaDecode

open Data

/-! The control flow of `LzmaDecode` in `LzmaDecode.c`, built without
`_LZMA_IN_CB`, `_LZMA_OUT_READ` and `_LZMA_PROB32`. The bits that it goes by
and the bytes that it outputs are questions to the range decoder. -/

/-! Where the probabilities of the table are for. -/

def kNumPosBitsMax : Nat := 4
def kNumPosStatesMax : Nat := 1 <<< kNumPosBitsMax

def kLenNumLowBits : Nat := 3
def kLenNumLowSymbols : Nat := 1 <<< kLenNumLowBits
def kLenNumMidBits : Nat := 3
def kLenNumMidSymbols : Nat := 1 <<< kLenNumMidBits
def kLenNumHighBits : Nat := 8
def kLenNumHighSymbols : Nat := 1 <<< kLenNumHighBits

def lenChoice : Nat := 0
def lenChoice2 : Nat := lenChoice + 1
def lenLow : Nat := lenChoice2 + 1
def lenMid : Nat := lenLow + kNumPosStatesMax <<< kLenNumLowBits
def lenHigh : Nat := lenMid + kNumPosStatesMax <<< kLenNumMidBits
def kNumLenProbs : Nat := lenHigh + kLenNumHighSymbols

def kNumStates : Nat := 12
def kNumLitStates : Nat := 7

def kStartPosModelIndex : Nat := 4
def kEndPosModelIndex : Nat := 14
def kNumFullDistances : Nat := 1 <<< (kEndPosModelIndex >>> 1)

def kNumPosSlotBits : Nat := 6
def kNumLenToPosStates : Nat := 4

def kNumAlignBits : Nat := 4
def kAlignTableSize : Nat := 1 <<< kNumAlignBits

def kMatchMinLen : Nat := 2

def isMatch : Nat := 0
def isRep : Nat := isMatch + kNumStates <<< kNumPosBitsMax
def isRepG0 : Nat := isRep + kNumStates
def isRepG1 : Nat := isRepG0 + kNumStates
def isRepG2 : Nat := isRepG1 + kNumStates
def isRep0Long : Nat := isRepG2 + kNumStates
def posSlotProbs : Nat := isRep0Long + kNumStates <<< kNumPosBitsMax
def specPos : Nat := posSlotProbs + kNumLenToPosStates <<< kNumPosSlotBits
def align : Nat := specPos + kNumFullDistances - kEndPosModelIndex
def lenCoder : Nat := align + kAlignTableSize
def repLenCoder : Nat := lenCoder + kNumLenProbs
def literal : Nat := repLenCoder + kNumLenProbs

def lzmaBaseSize : Nat := 1846
def lzmaLitSize : Nat := 768

/-- Without this the source does not compile. -/
example : literal = lzmaBaseSize := by decide

inductive Question
  /-- `IfBit0(p + prob)` with the update of the branch taken. -/
  | bit (prob : Nat)
  /-- A direct bit of a distance, for which there is no probability. -/
  | directBit
  | load (index : Word)
  | store (index : Word) (byte : Byte)
  | dataError

abbrev Question.Answer : Question → Type
  | .bit _ => Bool
  | .directBit => Bool
  | .load _ => Byte
  | .store _ _ => Unit
  | .dataError => Empty

abbrev Decoding := Dialogue Question Question.Answer

def bit (prob : Nat) : Decoding Bool := .ask (.bit prob) .done

def directBit : Decoding Bool := .ask .directBit .done

/-- `outStream[index]` -/
def load (index : Word) : Decoding Byte := .ask (.load index) .done

def store (index : Word) (byte : Byte) : Decoding Unit :=
  .ask (.store index byte) .done

/-- `return LZMA_RESULT_DATA_ERROR` -/
def dataError {α : Type} : Decoding α := .ask .dataError nofun

/-! Numbers. -/

/-- `RC_GET_BIT` -/
def getBit (prob mi : Nat) : Decoding Nat := do
  if ← bit prob then
    return mi + mi + 1
  else
    return mi <<< 1

def bitTree (probs : Nat) : Nat → Nat → Decoding Nat
  | 0, res => return res
  | levels + 1, res => do
      let res ← getBit (probs + res) res
      bitTree probs levels res

def rangeDecoderBitTreeDecode (probs numLevels : Nat) : Decoding Nat := do
  let res ← bitTree probs numLevels 1
  return res - 1 <<< numLevels

/-- The low bits of a distance, least significant first. -/
def reverseBits (prob : Nat) : Nat → (i : Word) → (mi : Nat) → (rep0 : Word) →
    Decoding Word
  | 0, _, _, rep0 => return rep0
  | numDirectBits + 1, i, mi, rep0 => do
      if ← bit (prob + mi) then
        reverseBits prob numDirectBits (i <<< 1) (mi + mi + 1) (rep0 ||| i)
      else
        reverseBits prob numDirectBits (i <<< 1) (mi <<< 1) rep0

def directBits : Nat → Word → Decoding Word
  | 0, rep0 => return rep0
  | numDirectBits + 1, rep0 => do
      let rep0 := rep0 <<< 1
      if ← directBit then
        directBits numDirectBits (rep0 ||| 1)
      else
        directBits numDirectBits rep0

def decodeLen (prob posState : Nat) : Decoding Nat := do
  if !(← bit (prob + lenChoice)) then
    rangeDecoderBitTreeDecode (prob + lenLow + posState <<< kLenNumLowBits)
      kLenNumLowBits
  else if !(← bit (prob + lenChoice2)) then
    let len ← rangeDecoderBitTreeDecode
      (prob + lenMid + posState <<< kLenNumMidBits) kLenNumMidBits
    return len + kLenNumLowSymbols
  else
    let len ← rangeDecoderBitTreeDecode (prob + lenHigh) kLenNumHighBits
    return len + (kLenNumLowSymbols + kLenNumMidSymbols)

/-- The bits of a distance below its slot. -/
def distanceFooter (posSlot : Nat) : Decoding Word := do
  if posSlot ≥ kStartPosModelIndex then
    let numDirectBits := posSlot >>> 1 - 1
    let rep0 : Word := 2 ||| (BitVec.ofNat 32 posSlot &&& 1)
    if posSlot < kEndPosModelIndex then
      let rep0 := rep0 <<< numDirectBits
      reverseBits (specPos + rep0.toNat - posSlot - 1) numDirectBits 1 1 rep0
    else
      let rep0 ← directBits (numDirectBits - kNumAlignBits) rep0
      reverseBits align kNumAlignBits 1 1 (rep0 <<< kNumAlignBits)
  else
    return BitVec.ofNat 32 posSlot

/-- What `rep0` is before its increment. -/
def decodeDistance (len : Nat) : Decoding Word := do
  let posSlot ← rangeDecoderBitTreeDecode
    (posSlotProbs + (if len < kNumLenToPosStates then len
      else kNumLenToPosStates - 1) <<< kNumPosSlotBits) kNumPosSlotBits
  distanceFooter posSlot

/-! One round of the main loop. -/

structure Vars where
  nowPos : Word
  previousByte : Byte
  state : Nat
  rep0 : Word
  rep1 : Word
  rep2 : Word
  rep3 : Word
  deriving DecidableEq

def Vars.start : Vars := ⟨0, 0, 0, 1, 1, 1, 1⟩

/-- `while (symbol < 0x100)`. The symbol doubles from 1 on, so that 8 rounds
are enough. -/
def literalBits (prob : Nat) : Nat → (symbol : Nat) → Decoding Nat
  | 0, symbol => return symbol
  | rounds + 1, symbol => do
      if symbol < 0x100 then
        let symbol ← getBit (prob + symbol) symbol
        literalBits prob rounds symbol
      else
        return symbol

/-- The loop over a literal after a match, up to the first bit in which it
differs from the byte that the match would have gone on with. -/
def matchedBits (prob : Nat) : Nat → (matchByte symbol : Nat) → Decoding Nat
  | 0, _, symbol => return symbol
  | rounds + 1, matchByte, symbol => do
      let matchByte := matchByte <<< 1
      let bit' := matchByte &&& 0x100
      if ← bit (prob + 0x100 + bit' + symbol) then
        let symbol := symbol + symbol + 1
        if bit' = 0 then
          return symbol
        else if symbol < 0x100 then
          matchedBits prob rounds matchByte symbol
        else
          return symbol
      else
        let symbol := symbol <<< 1
        if bit' ≠ 0 then
          return symbol
        else if symbol < 0x100 then
          matchedBits prob rounds matchByte symbol
        else
          return symbol

def literalState (state : Nat) : Nat :=
  if state < 4 then 0 else if state < 10 then state - 3 else state - 6

def posStateMask (properties : CLzmaProperties) : Word :=
  1 <<< properties.pb - 1

def literalPosMask (properties : CLzmaProperties) : Word :=
  1 <<< properties.lp - 1

def literalProbs (properties : CLzmaProperties) (v : Vars) : Nat :=
  literal + lzmaLitSize *
    ((v.nowPos &&& literalPosMask properties).toNat <<< properties.lc +
      v.previousByte.toNat >>> (8 - properties.lc))

/-- The part of a literal after a match that has other probabilities. -/
def matchedSymbol (prob : Nat) (v : Vars) : Decoding Nat := do
  if v.state ≥ kNumLitStates then
    let matchByte ← load (v.nowPos - v.rep0)
    matchedBits prob 8 matchByte.toNat 1
  else
    return 1

def decodeLiteral (properties : CLzmaProperties) (v : Vars) :
    Decoding Vars := do
  let prob := literalProbs properties v
  let symbol ← matchedSymbol prob v
  let symbol ← literalBits prob 8 symbol
  let previousByte := BitVec.ofNat 8 symbol
  store v.nowPos previousByte
  return { v with
    nowPos := v.nowPos + 1, previousByte, state := literalState v.state }

/-- `previousByte = outStream[nowPos - rep0]`, and back to the output. -/
def copyByte (v : Vars) : Decoding Vars := do
  let previousByte ← load (v.nowPos - v.rep0)
  store v.nowPos previousByte
  return { v with nowPos := v.nowPos + 1, previousByte }

/-- A single byte from the last distance. -/
def decodeShortRep (v : Vars) : Decoding Vars := do
  if v.nowPos = 0 then
    dataError
  else
    copyByte { v with state := if v.state < kNumLitStates then 9 else 11 }

/-- `do ... while (len != 0 && nowPos < outSize)`; `len` is 2 at least. -/
def copyMatch (outSize : Word) : Nat → Vars → Decoding Vars
  | 0, v => return v
  | len + 1, v => do
      let v ← copyByte v
      if len ≠ 0 ∧ v.nowPos < outSize then
        copyMatch outSize len v
      else
        return v

/-- The end of a round that outputs a match. -/
def finishMatch (outSize : Word) (len : Nat) (v : Vars) :
    Decoding (Vars ⊕ Word) := do
  let len := len + kMatchMinLen
  if v.rep0 > v.nowPos then
    dataError
  else
    return .inl (← copyMatch outSize len v)

/-- From the length of a match on, with the probabilities for it; the state
tells whether there is a distance to come. -/
def decodeMatch (outSize : Word) (prob posState : Nat) (v : Vars) :
    Decoding (Vars ⊕ Word) := do
  let len ← decodeLen prob posState
  if v.state < 4 then
    let rep0 ← decodeDistance len
    let v := { v with state := v.state + kNumLitStates, rep0 := rep0 + 1 }
    if v.rep0 = 0 then
      -- The end marker.
      return .inr v.nowPos
    else
      finishMatch outSize len v
  else
    finishMatch outSize len v

def repState (state : Nat) : Nat := if state < kNumLitStates then 8 else 11

/-- A match at one of the distances before the last, which changes places. -/
def decodeOlderRep (v : Vars) : Decoding Vars := do
  if !(← bit (isRepG1 + v.state)) then
    return { v with rep0 := v.rep1, rep1 := v.rep0 }
  else if !(← bit (isRepG2 + v.state)) then
    return { v with rep0 := v.rep2, rep1 := v.rep0, rep2 := v.rep1 }
  else
    return { v with
      rep0 := v.rep3, rep1 := v.rep0, rep2 := v.rep1, rep3 := v.rep2 }

/-- One round: the variables for the next, or `nowPos` at the end marker. -/
def decodeRound (properties : CLzmaProperties) (outSize : Word) (v : Vars) :
    Decoding (Vars ⊕ Word) := do
  let posState := (v.nowPos &&& posStateMask properties).toNat
  if !(← bit (isMatch + v.state <<< kNumPosBitsMax + posState)) then
    return .inl (← decodeLiteral properties v)
  else if !(← bit (isRep + v.state)) then
    decodeMatch outSize lenCoder posState { v with
      rep3 := v.rep2, rep2 := v.rep1, rep1 := v.rep0
      state := if v.state < kNumLitStates then 0 else 3 }
  else if !(← bit (isRepG0 + v.state)) then
    if !(← bit (isRep0Long + v.state <<< kNumPosBitsMax + posState)) then
      return .inl (← decodeShortRep v)
    else
      decodeMatch outSize repLenCoder posState
        { v with state := repState v.state }
  else
    let v ← decodeOlderRep v
    decodeMatch outSize repLenCoder posState
      { v with state := repState v.state }

/-- `while (nowPos < outSize)`, with at most `fuel` rounds: `nowPos` at the
end, and `none` when the rounds have run out. -/
def mainLoop (properties : CLzmaProperties) (outSize : Word) :
    Nat → Vars → Decoding (Option Word)
  | 0, _ => return none
  | fuel + 1, v => do
      if v.nowPos < outSize then
        match ← decodeRound properties outSize v with
        | .inl v => mainLoop properties outSize fuel v
        | .inr nowPos => return some nowPos
      else
        return some v.nowPos

end AuxLoader.LzmaDecode
