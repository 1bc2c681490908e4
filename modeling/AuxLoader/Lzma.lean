import AuxLoader.Data.Memory

namespace AuxLoader

open Data

/-! The LZMA front end of `lzma.c`. -/

def lzmaResultOk : Int := 0
def lzmaResultDataError : Int := 1

def lzmaPropertiesSize : Nat := 5

structure CLzmaProperties where
  lc : Nat
  lp : Nat
  pb : Nat
  deriving DecidableEq

/-- `LzmaGetNumProbs` -/
def CLzmaProperties.numProbs (properties : CLzmaProperties) : Nat :=
  1846 + 768 <<< (properties.lc + properties.lp)

def takeOff (unit : Nat) : Nat → Nat → Nat × Nat
  | 0, prop0 => (0, prop0)
  | rounds + 1, prop0 =>
      if unit ≤ prop0 then
        let (count, rest) := takeOff unit rounds (prop0 - unit)
        (count + 1, rest)
      else (0, prop0)

def lzmaDecodeProperties (propsData : List Byte) (size : Nat) :
    Except Int CLzmaProperties :=
  if size < lzmaPropertiesSize then
    .error lzmaResultDataError
  else
    let prop0 := (propsData.headD 0).toNat
    if prop0 ≥ 9 * 5 * 5 then
      .error lzmaResultDataError
    else
      let (pb, prop0) := takeOff (9 * 5) 256 prop0
      let (lp, prop0) := takeOff 9 256 prop0
      .ok ⟨prop0, lp, pb⟩

/-- What `LzmaDecode` comes to: its result, the input it consumed and memory. -/
structure LzmaResult where
  ret : Int
  inSizeProcessed : Word
  mem : Memory

/-- `LzmaDecode`, given the properties, the probability table, the input and
the output. -/
abbrev LzmaDecoder :=
  Memory → CLzmaProperties →
    (probs inStream inSize outStream outSize : Word) → Traced Word LzmaResult

/-- The decoder writes to its output and to its probability table only. -/
def LzmaDecoder.WritesWithin (decode : LzmaDecoder) : Prop :=
  ∀ mem properties probs inStream inSize outStream outSize a,
    ¬ Word.Within outStream outSize.toNat a →
    ¬ Word.Within probs (2 * properties.numProbs) a →
    (decode mem properties probs inStream inSize outStream outSize).val.mem a =
      mem a

structure LzmaInput where
  lzmaData : Word
  lzmaDatasize : Word

def lzmaGetByte (mem : Memory) (input : LzmaInput) :
    Traced Word (Byte × LzmaInput) := do
  let c ← mem.loadByte input.lzmaData
  return (c, ⟨input.lzmaData + 1, input.lzmaDatasize - 1⟩)

def lzmaGetBytes (mem : Memory) :
    Nat → LzmaInput → Traced Word (List Byte × LzmaInput)
  | 0, input => return ([], input)
  | count + 1, input => do
      let (c, input) ← lzmaGetByte mem input
      let (rest, input) ← lzmaGetBytes mem count input
      return (c :: rest, input)

/-- The properties, the lower half of the uncompressed size, whose bytes are
taken in the order they are written down, and the input after the header. -/
def lzmaInitProps (mem : Memory) (input : LzmaInput) :
    Traced Word (Except Int CLzmaProperties × Word × LzmaInput) := do
  let (props, input) ← lzmaGetBytes mem lzmaPropertiesSize input
  let (b₀, input) ← lzmaGetByte mem input
  let (b₁, input) ← lzmaGetByte mem input
  let (b₂, input) ← lzmaGetByte mem input
  let (b₃, input) ← lzmaGetByte mem input
  let lzmaOutsize := b₀.setWidth 32 + b₁.setWidth 32 <<< 8 +
    b₂.setWidth 32 <<< 16 + b₃.setWidth 32 <<< 24
  let (_, input) ← lzmaGetBytes mem 4 input
  return (lzmaDecodeProperties props lzmaPropertiesSize, lzmaOutsize, input)

/-- A failed decode dumps 16 bytes of the input it stopped at. -/
def lzmaDecompress (decode : LzmaDecoder) (mem : Memory) (workspace : Word)
    (properties : CLzmaProperties) (input : LzmaInput)
    (outStream lzmaOutsize : Word) : Traced Word (Int × Memory) := do
  let result ← decode mem properties workspace input.lzmaData
    input.lzmaDatasize outStream lzmaOutsize
  if result.ret ≠ lzmaResultOk then
    let ip := ⟨input.lzmaData + result.inSizeProcessed, 0⟩
    let _ ← lzmaGetBytes result.mem 16 ip
    return (result.ret, result.mem)
  else
    return (result.ret, result.mem)

def lzmaGogogo (decode : LzmaDecoder) (mem : Memory)
    (workspace kernelLa lzmaData lzmaDatasize : Word) :
    Traced Word (Int × Memory) := do
  let (res, lzmaOutsize, input) ← lzmaInitProps mem ⟨lzmaData, lzmaDatasize⟩
  match res with
  | .error _ => return (-1, mem)
  | .ok properties =>
      let (res, mem) ← lzmaDecompress decode mem workspace properties input
        kernelLa lzmaOutsize
      if res ≠ lzmaResultOk then
        return (-2, mem)
      else
        return (0, mem)

/-! The header as a whole. -/

theorem takeOff_eq (unit : Nat) (positive : 0 < unit) (rounds prop0 : Nat)
    (enough : prop0 < unit * rounds) :
    takeOff unit rounds prop0 = (prop0 / unit, prop0 % unit) := by
  induction rounds generalizing prop0 with
  | zero => simp at enough
  | succ rounds ih =>
      rw [takeOff]
      by_cases more : unit ≤ prop0
      · have fewer : prop0 - unit < unit * rounds := by
          rw [Nat.mul_succ] at enough
          omega
        rw [if_pos more, ih _ fewer, Nat.div_eq_sub_div positive more,
          Nat.mod_eq_sub_mod more]
      · rw [if_neg more, Nat.div_eq_of_lt (Nat.lt_of_not_le more),
          Nat.mod_eq_of_lt (Nat.lt_of_not_le more)]

def propertiesOf (prop0 : Byte) : CLzmaProperties :=
  ⟨prop0.toNat % 45 % 9, prop0.toNat % 45 / 9, prop0.toNat / 45⟩

theorem lzmaDecodeProperties_eq (props : List Byte) :
    lzmaDecodeProperties props lzmaPropertiesSize =
      if (props.headD 0).toNat ≥ 225 then .error lzmaResultDataError
      else .ok (propertiesOf (props.headD 0)) := by
  have small := (props.headD 0).isLt
  have first := takeOff_eq 45 (by decide) 256 (props.headD 0).toNat (by omega)
  have second := takeOff_eq 9 (by decide) 256 ((props.headD 0).toNat % 45)
    (by omega)
  simp only [lzmaDecodeProperties, Nat.reduceMul, first, second]
  rfl

theorem lzmaGetBytes_val (mem : Memory) (count : Nat) (input : LzmaInput) :
    (lzmaGetBytes mem count input).val =
      ((List.range count).map fun i => mem (input.lzmaData + BitVec.ofNat 32 i),
        ⟨input.lzmaData + BitVec.ofNat 32 count,
          input.lzmaDatasize - BitVec.ofNat 32 count⟩) := by
  induction count generalizing input with
  | zero => simp [lzmaGetBytes]
  | succ count ih =>
      have onward (i : Nat) : input.lzmaData + 1 + BitVec.ofNat 32 i =
          input.lzmaData + BitVec.ofNat 32 (i + 1) := by
        rw [Nat.add_comm]
        exact Word.add_ofNat_add_ofNat input.lzmaData 1 i
      have fewer : input.lzmaDatasize - 1 - BitVec.ofNat 32 count =
          input.lzmaDatasize - BitVec.ofNat 32 (count + 1) := by
        rw [BitVec.sub_sub, BitVec.add_comm]
        exact congrArg (input.lzmaDatasize - ·) (BitVec.ofNat_add count 1).symm
      simp only [lzmaGetBytes, lzmaGetByte, Traced.val_bind, Traced.val_pure,
        Memory.val_loadByte, ih, onward, fewer, List.range_succ_eq_map,
        List.map_cons, List.map_map]
      simp [Function.comp_def]

theorem lzmaInitProps_val (mem : Memory) (input : LzmaInput) :
    (lzmaInitProps mem input).val =
      (if (mem input.lzmaData).toNat ≥ 225 then .error lzmaResultDataError
        else .ok (propertiesOf (mem input.lzmaData)),
        mem.word (input.lzmaData + 5),
        ⟨input.lzmaData + 13, input.lzmaDatasize - 13⟩) := by
  have first : ((List.range lzmaPropertiesSize).map fun i =>
      mem (input.lzmaData + BitVec.ofNat 32 i)).headD 0 =
        mem input.lzmaData := by
    simp [lzmaPropertiesSize, List.range_succ_eq_map]
  simp only [lzmaInitProps, Traced.val_bind, Traced.val_pure,
    lzmaGetBytes_val, lzmaDecodeProperties_eq, first, lzmaGetByte,
    Memory.val_loadByte, Word.add_eq_pack]
  refine Prod.ext rfl (Prod.ext ?_ ?_)
  · simp only [Memory.word, lzmaPropertiesSize, BitVec.add_assoc]
    rfl
  · simp only [lzmaPropertiesSize, BitVec.add_assoc, BitVec.sub_sub]
    rfl

theorem lzmaDecompress_val (decode : LzmaDecoder) (mem : Memory)
    (workspace : Word) (properties : CLzmaProperties) (input : LzmaInput)
    (outStream lzmaOutsize : Word) :
    (lzmaDecompress decode mem workspace properties input outStream
        lzmaOutsize).val =
      let result := (decode mem properties workspace input.lzmaData
        input.lzmaDatasize outStream lzmaOutsize).val
      (result.ret, result.mem) := by
  rw [lzmaDecompress, Traced.val_bind]
  split <;> rfl

/-- The call of the decoder that a header with good properties leads to. -/
def lzmaCall (decode : LzmaDecoder) (mem : Memory)
    (workspace kernelLa lzmaData lzmaDatasize : Word) : LzmaResult :=
  (decode mem (propertiesOf (mem lzmaData)) workspace (lzmaData + 13)
    (lzmaDatasize - 13) kernelLa (mem.word (lzmaData + 5))).val

theorem lzmaGogogo_val (decode : LzmaDecoder) (mem : Memory)
    (workspace kernelLa lzmaData lzmaDatasize : Word) :
    (lzmaGogogo decode mem workspace kernelLa lzmaData lzmaDatasize).val =
      if (mem lzmaData).toNat ≥ 225 then (-1, mem)
      else
        let result :=
          lzmaCall decode mem workspace kernelLa lzmaData lzmaDatasize
        (if result.ret ≠ lzmaResultOk then -2 else 0, result.mem) := by
  rw [lzmaGogogo, Traced.val_bind, lzmaInitProps_val]
  by_cases bad : (mem lzmaData).toNat ≥ 225
  · rw [if_pos bad, if_pos bad]
    rfl
  · rw [if_neg bad, if_neg bad]
    simp only [Traced.val_bind, lzmaDecompress_val]
    change Traced.val (if (lzmaCall decode mem workspace kernelLa lzmaData
      lzmaDatasize).ret ≠ lzmaResultOk then _ else _) = _
    by_cases failed : (lzmaCall decode mem workspace kernelLa lzmaData
        lzmaDatasize).ret ≠ lzmaResultOk
    · rw [if_pos failed, if_pos failed]
      rfl
    · rw [if_neg failed, if_neg failed]
      rfl

end AuxLoader
