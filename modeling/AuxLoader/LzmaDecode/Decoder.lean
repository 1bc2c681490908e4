import AuxLoader.LzmaDecode.Program

namespace AuxLoader.LzmaDecode

open Data

/-! The range decoder of `LzmaDecode.c`, on memory. -/

def kTopValue : Word := 1 <<< 24
def kNumBitModelTotalBits : Nat := 11
def kBitModelTotal : Word := 1 <<< kNumBitModelTotalBits
def kNumMoveBits : Nat := 5

/-- The arguments of `LzmaDecode`, with the probability table. -/
structure Call where
  properties : CLzmaProperties
  probs : Word
  inStream : Word
  inSize : Word
  outStream : Word
  outSize : Word

def Call.bufferLim (call : Call) : Word := call.inStream + call.inSize

/-- Where the decoder goes: to a byte of the input, a probability, or a byte of
the output. -/
inductive Access
  | input (address : Word)
  | prob (address : Word)
  | load (address : Word)
  | store (address : Word)
  deriving DecidableEq

def Access.input? : Access → Option Word
  | .input address => some address
  | _ => none

def Access.store? : Access → Option Word
  | .store address => some address
  | _ => none

structure RangeDecoder where
  range : Word
  code : Word
  buffer : Word
  mem : Memory
  log : List Access

namespace RangeDecoder

def emit (s : RangeDecoder) (access : Access) : RangeDecoder :=
  { s with log := s.log ++ [access] }

end RangeDecoder

section Primitives

variable (call : Call)

/-- `RC_TEST` and `RC_READ_BYTE` -/
def rcReadByte (s : RangeDecoder) : Option Byte × RangeDecoder :=
  if s.buffer = call.bufferLim then
    (none, s)
  else
    (some (s.mem s.buffer),
      { s with buffer := s.buffer + 1 }.emit (.input s.buffer))

/-- `RC_NORMALIZE` -/
def rcNormalize (s : RangeDecoder) : Option Unit × RangeDecoder :=
  if s.range < kTopValue then
    match rcReadByte call s with
    | (none, s) => (none, s)
    | (some byte, s) =>
        (some (), { s with
          range := s.range <<< 8, code := s.code <<< 8 ||| byte.setWidth 32 })
  else
    (some (), s)

/-- The subtraction and the shift are those of an `int`. -/
def updateBit0 (p : BitVec 16) : BitVec 16 :=
  p + ((kBitModelTotal - p.setWidth 32).sshiftRight kNumMoveBits).setWidth 16

def updateBit1 (p : BitVec 16) : BitVec 16 := p - p >>> kNumMoveBits

def Call.probAddress (call : Call) (prob : Nat) : Word :=
  call.probs + BitVec.ofNat 32 (2 * prob)

/-- What comes of a normalized range. -/
def rcDecide (prob : Nat) (s : RangeDecoder) : Option Bool × RangeDecoder :=
  let address := call.probAddress prob
  let p := s.mem.half address
  let s := s.emit (.prob address)
  let bound := s.range >>> kNumBitModelTotalBits * p.setWidth 32
  if s.code < bound then
    (some false, { s with
      range := bound, mem := s.mem.setHalf address (updateBit0 p) })
  else
    (some true, { s with
      range := s.range - bound, code := s.code - bound
      mem := s.mem.setHalf address (updateBit1 p) })

def rcDirect (s : RangeDecoder) : Option Bool × RangeDecoder :=
  let s := { s with range := s.range >>> 1 }
  if s.code ≥ s.range then
    (some true, { s with code := s.code - s.range })
  else
    (some false, s)

def normalized {α : Type} (next : RangeDecoder → Option α × RangeDecoder)
    (s : RangeDecoder) : Option α × RangeDecoder :=
  match rcNormalize call s with
  | (none, s) => (none, s)
  | (some _, s) => next s

/-- The answers to the questions of the control flow. -/
def answer : Handler Question Question.Answer RangeDecoder
  | .bit prob, s => normalized call (rcDecide call prob) s
  | .directBit, s => normalized call rcDirect s
  | .load index, s =>
      (some (s.mem (call.outStream + index)),
        s.emit (.load (call.outStream + index)))
  | .store index byte, s =>
      (some (), { s with mem := s.mem.setByte (call.outStream + index) byte }.emit
        (.store (call.outStream + index)))
  | .dataError, s => (none, s)

/-- Every probability starts in the middle. -/
def initProbs (s : RangeDecoder) : RangeDecoder :=
  (List.range call.properties.numProbs).foldl (fun s prob =>
    let address := call.probAddress prob
    let half := (kBitModelTotal >>> 1).setWidth 16
    { s with mem := s.mem.setHalf address half }.emit (.prob address)) s

/-- The bytes that `RC_INIT2` shifts into the code. -/
def rcInit : Nat → RangeDecoder → Option Unit × RangeDecoder
  | 0, s => (some (), s)
  | rounds + 1, s =>
      match rcReadByte call s with
      | (none, s) => (none, s)
      | (some byte, s) =>
          rcInit rounds
            { s with code := s.code <<< 8 ||| byte.setWidth 32 }

end Primitives

/-- How a call ends: what it returns, what it stores in `inSizeProcessed` and
`outSizeProcessed`, and what it leaves behind. -/
structure Ended where
  ret : Int
  inSizeProcessed : Word
  outSizeProcessed : Word
  last : RangeDecoder

def failed (s : RangeDecoder) : Ended := ⟨lzmaResultDataError, 0, 0, s⟩

section Decode

variable (call : Call)

def finish (nowPos : Word) (s : RangeDecoder) : Ended :=
  match rcNormalize call s with
  | (none, s) => failed s
  | (some _, s) => ⟨lzmaResultOk, s.buffer - call.inStream, nowPos, s⟩

/-- The rounds never run out, so that `some none` stands for nothing. -/
def decodeFrom (s : RangeDecoder) : Ended :=
  match (mainLoop call.properties call.outSize (call.outSize.toNat + 1)
      .start).run (answer call) s with
  | (none, s) => failed s
  | (some none, s) => failed s
  | (some (some nowPos), s) => finish call nowPos s

def decode (mem : Memory) : Ended :=
  let s := initProbs call
    { range := 0xFFFFFFFF, code := 0, buffer := call.inStream, mem := mem,
      log := [] }
  match rcInit call 5 s with
  | (none, s) => failed s
  | (some _, s) => decodeFrom call s

end Decode

end LzmaDecode

/-- `LzmaDecode`, for the front end of `lzma.c`. -/
def lzmaDecode : LzmaDecoder :=
  fun mem properties probs inStream inSize outStream outSize =>
    let ended := LzmaDecode.decode
      ⟨properties, probs, inStream, inSize, outStream, outSize⟩ mem
    .touch (ended.last.log.filterMap LzmaDecode.Access.input?)
      ⟨ended.ret, ended.inSizeProcessed, ended.last.mem⟩

end AuxLoader
