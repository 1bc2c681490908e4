import AuxLoader.LzmaInput
import AuxLoader.LzmaDecode.Sound

namespace AuxLoader

open Data

/-! Whole LZMA files, header and stream, in the front end of `lzma.c`. -/

def CLzmaProperties.prop0 (properties : CLzmaProperties) : Byte :=
  BitVec.ofNat 8 ((properties.pb * 5 + properties.lp) * 9 + properties.lc)

theorem CLzmaProperties.Valid.toNat_prop0 {properties : CLzmaProperties}
    (valid : properties.Valid) :
    properties.prop0.toNat =
      (properties.pb * 5 + properties.lp) * 9 + properties.lc := by
  obtain ⟨lc, lp, pb⟩ := valid
  rw [prop0, BitVec.toNat_ofNat]
  omega

/-- The header's first byte is all there is to the properties. -/
theorem CLzmaProperties.Valid.propertiesOf_prop0
    {properties : CLzmaProperties} (valid : properties.Valid) :
    properties.prop0.toNat < 225 ∧
      propertiesOf properties.prop0 = properties := by
  obtain ⟨lc, lp, pb⟩ := valid
  have byte := CLzmaProperties.Valid.toNat_prop0 ⟨lc, lp, pb⟩
  refine ⟨by omega, ?_⟩
  rw [propertiesOf, byte]
  cases properties
  dsimp only at *
  congr 1 <;> omega

def Memory.leBytes (value : Word) : List Byte :=
  [value.byte 0, value.byte 1, value.byte 2, value.byte 3]

/-- A file of a stream. The dictionary size and the upper half of the output
size are read, and left at that. -/
structure LzmaFile where
  properties : CLzmaProperties
  dictionarySize : Word
  outSize : Word
  outSizeHigh : Word
  stream : List Byte

def LzmaFile.bytes (file : LzmaFile) : List Byte :=
  file.properties.prop0 :: (Memory.leBytes file.dictionarySize ++
    (Memory.leBytes file.outSize ++
      (Memory.leBytes file.outSizeHigh ++ file.stream)))

@[simp] theorem LzmaFile.length_bytes (file : LzmaFile) :
    file.bytes.length = 13 + file.stream.length := by
  simp only [bytes, Memory.leBytes, List.length_cons, List.length_append,
    List.length_nil]
  omega

section File

variable {mem : Memory} {workspace kernelLa lzmaData size : Word}

theorem holds_leBytes {address value : Word} :
    mem.Holds address (Memory.leBytes value) ↔ mem.word address = value := by
  have two : address + 1 + 1 = address + 2 := by bv_omega
  have three : address + 2 + 1 = address + 3 := by bv_omega
  simp only [Memory.leBytes, Memory.holds_cons, Memory.holds_nil, two, three,
    and_true, Memory.word]
  constructor
  · rintro ⟨h₀, h₁, h₂, h₃⟩
    rw [h₀, h₁, h₂, h₃, Word.pack_byte]
  · rintro rfl
    simp

theorem LzmaFile.holds {file : LzmaFile}
    (held : mem.Holds lzmaData file.bytes) :
    mem lzmaData = file.properties.prop0 ∧
      mem.word (lzmaData + 5) = file.outSize ∧
      mem.Holds (lzmaData + 13) file.stream := by
  rw [bytes, Memory.holds_cons, Memory.holds_append, Memory.holds_append,
    Memory.holds_append] at held
  obtain ⟨first, _, outSize, _, stream⟩ := held
  have five : lzmaData + 1 + BitVec.ofNat 32 4 = lzmaData + 5 := by bv_omega
  have thirteen : lzmaData + 5 + BitVec.ofNat 32 4 + BitVec.ofNat 32 4 =
      lzmaData + 13 := by bv_omega
  simp only [Memory.leBytes, List.length_cons, List.length_nil, five, thirteen]
    at outSize stream
  exact ⟨first, holds_leBytes.mp outSize, stream⟩

/-- The call of the decoder that the front end makes. -/
def fileCall (properties : CLzmaProperties)
    (workspace kernelLa lzmaData size outSize : Word) : LzmaDecode.Call where
  properties := properties
  probs := workspace
  inStream := lzmaData + 13
  inSize := size - 13
  outStream := kernelLa
  outSize := outSize

/-- The same for what is in memory as a header. -/
def headerCall (mem : Memory) (workspace kernelLa lzmaData size : Word) :
    LzmaDecode.Call :=
  fileCall (propertiesOf (mem lzmaData)) workspace kernelLa lzmaData size
    (mem.word (lzmaData + 5))

theorem lzmaGogogo_lzmaDecode (good : (mem lzmaData).toNat < 225) :
    let ended := LzmaDecode.decode
      (headerCall mem workspace kernelLa lzmaData size) mem
    (lzmaGogogo lzmaDecode mem workspace kernelLa lzmaData size).val =
      (if ended.ret ≠ lzmaResultOk then -2 else 0, ended.last.mem) := by
  rw [lzmaGogogo_val, if_neg (Nat.not_le.mpr good)]
  rfl

open LzmaDecode in
/-- The front end unpacks the file of every sequence of packets. -/
theorem lzmaGogogo_unpacks {file : LzmaFile} {packets : List Packet}
    {ending : Ending} (valid : file.properties.Valid)
    (apart : (fileCall file.properties workspace kernelLa lzmaData size
      file.outSize).Apart)
    (packs : Packs file.outSize.toNat .start packets)
    (legal : Ending.Legal file.outSize.toNat (expand packets .start).out.length
      ending)
    (stream : Encodes file.properties packets ending file.stream)
    (held : mem.Holds lzmaData file.bytes)
    (fits : file.bytes.length ≤ size.toNat) :
    let unpacked := (lzmaGogogo lzmaDecode mem workspace kernelLa lzmaData
      size).val
    unpacked.1 = 0 ∧ unpacked.2.Holds kernelLa
      ((expand packets .start).out.take file.outSize.toNat) := by
  obtain ⟨first, outSize, rest⟩ := LzmaFile.holds held
  obtain ⟨good, properties⟩ := valid.propertiesOf_prop0
  rw [LzmaFile.length_bytes] at fits
  have room : (size - 13).toNat = size.toNat - 13 := by bv_omega
  have whole : file.stream.length ≤ (size - 13).toNat := by omega
  obtain ⟨s, t, tail, table, starts, runs, ready, _⟩ := @decode_ready
    (fileCall file.properties workspace kernelLa lzmaData size file.outSize)
    mem packets ending valid apart packs legal _ stream rest whole
  obtain ⟨ok, _, _, output⟩ := decodeFrom_ready runs ready
  have header : headerCall mem workspace kernelLa lzmaData size =
      fileCall file.properties workspace kernelLa lzmaData size
        file.outSize := by
    rw [headerCall, first, properties, outSize]
  rw [lzmaGogogo_lzmaDecode (by rw [first]; exact good), header]
  simp only [starts]
  exact ⟨if_neg (not_not_intro ok), output⟩

open LzmaDecode in
/-- Whatever the front end takes for a kernel is what the packets in the file
unpack to. -/
theorem lzmaGogogo_sound
    (apart : (headerCall mem workspace kernelLa lzmaData size).TableApart)
    (ok : (lzmaGogogo lzmaDecode mem workspace kernelLa lzmaData size).val.1 =
      0) :
    ∃ last, Unpacks (mem.word (lzmaData + 5)).toNat .start
        (toldBits (headerCall mem workspace kernelLa lzmaData size) mem) last ∧
      (lzmaGogogo lzmaDecode mem workspace kernelLa lzmaData size).val.2.Holds
        kernelLa last := by
  by_cases good : (mem lzmaData).toNat < 225
  · rw [lzmaGogogo_lzmaDecode good] at ok ⊢
    simp only at ok ⊢
    split at ok
    next => cases ok
    next returned =>
      obtain ⟨last, unpacks, holds, _⟩ :=
        decode_ok (propertiesOf_valid good) apart (not_not.mp returned)
      exact ⟨last, unpacks, holds⟩
  · rw [lzmaGogogo_val, if_pos (Nat.not_lt.mp good)] at ok
    cases ok

end File

/-! The decoder as it is called: with properties from a header. -/

instance (properties : CLzmaProperties) : Decidable properties.Valid :=
  decidable_of_iff
    (properties.lc ≤ 8 ∧ properties.lp ≤ 4 ∧ properties.pb ≤ 4)
    ⟨fun ⟨lc, lp, pb⟩ => ⟨lc, lp, pb⟩, fun ⟨lc, lp, pb⟩ => ⟨lc, lp, pb⟩⟩

/-- Properties that no header gives are turned down. -/
def LzmaDecoder.guarded (decode : LzmaDecoder) : LzmaDecoder :=
  fun mem properties probs inStream inSize outStream outSize =>
    if properties.Valid then
      decode mem properties probs inStream inSize outStream outSize
    else
      pure ⟨lzmaResultDataError, 0, mem⟩

section Guarded

variable (decode : LzmaDecoder) {mem : Memory}
  {workspace kernelLa lzmaData size : Word}

theorem guarded_propertiesOf (good : (mem lzmaData).toNat < 225)
    (probs inStream inSize outStream outSize : Word) :
    decode.guarded mem (propertiesOf (mem lzmaData)) probs inStream inSize
        outStream outSize =
      decode mem (propertiesOf (mem lzmaData)) probs inStream inSize outStream
        outSize :=
  if_pos (propertiesOf_valid good)

theorem lzmaGogogo_guarded (mem : Memory)
    (workspace kernelLa lzmaData size : Word) :
    lzmaGogogo decode.guarded mem workspace kernelLa lzmaData size =
      lzmaGogogo decode mem workspace kernelLa lzmaData size := by
  unfold lzmaGogogo
  refine Traced.bind_congr ?_
  rw [lzmaInitProps_val]
  by_cases bad : (mem lzmaData).toNat ≥ 225
  · rw [if_pos bad]
  · rw [if_neg bad]
    simp only [lzmaDecompress, guarded_propertiesOf decode (Nat.not_le.mp bad)]

/-- What the code of `LzmaDecode` keeps to, a caller may take for granted. -/
theorem lzmaDecode_guarded_writesWithin :
    lzmaDecode.guarded.WritesWithin := by
  intro mem properties probs inStream inSize outStream outSize a output table
  unfold LzmaDecoder.guarded
  split
  next valid =>
    obtain ⟨n, confined, _⟩ := LzmaDecode.decode_confined
      ⟨properties, probs, inStream, inSize, outStream, outSize⟩ mem valid
    refine confined.frame a (fun near => output ?_) table
    exact Nat.lt_of_lt_of_le near confined.room
  next => rfl

end Guarded

section Inside

variable {mem : Memory} {workspace kernelLa lzmaData size : Word}

theorem lzmaDecode_readsIn {properties : CLzmaProperties}
    (valid : properties.Valid)
    (probs inStream inSize outStream outSize : Word) :
    (lzmaDecode mem properties probs inStream inSize outStream
      outSize).ReadsIn (Word.Within inStream inSize.toNat) := by
  obtain ⟨n, confined, _⟩ := LzmaDecode.decode_confined
    ⟨properties, probs, inStream, inSize, outStream, outSize⟩ mem valid
  intro a read
  rw [lzmaDecode, Traced.reads_touch, confined.inputs] at read
  obtain ⟨i, index, rfl⟩ := List.mem_map.mp read
  have near : i < inSize.toNat :=
    Nat.lt_of_lt_of_le (List.mem_range.mp index) confined.consumed
  unfold Word.Within
  bv_omega

theorem lzmaCall_lzmaDecode_failed
    (failed : DecodeFails lzmaDecode mem workspace kernelLa lzmaData size) :
    (lzmaCall lzmaDecode mem workspace kernelLa lzmaData
      size).inSizeProcessed = 0 := by
  obtain ⟨n, _, reports⟩ := LzmaDecode.decode_confined
    (fileCall (propertiesOf (mem lzmaData)) workspace kernelLa lzmaData size
      (mem.word (lzmaData + 5))) mem (propertiesOf_valid failed.1)
  cases reports with
  | ok ret => exact absurd ret failed.2
  | error _ input => exact input

/-- A failed decode reports no input, so that the dump starts at the stream:
29 bytes are enough, and fewer are not. -/
theorem staysInside_lzmaDecode_iff :
    StaysInside lzmaDecode mem workspace kernelLa lzmaData size ↔
      13 ≤ size.toNat ∧
        (DecodeFails lzmaDecode mem workspace kernelLa lzmaData size →
          29 ≤ size.toNat) := by
  constructor
  · intro inside
    refine ⟨lzmaInitProps_inside_iff.mp inside.props, fun failed => ?_⟩
    have dump := (lzmaGogogo_readsIn_iff.mp inside.stage).2.2 failed 15
      (by decide)
    rw [lzmaCall_lzmaDecode_failed failed] at dump
    unfold Word.Within at dump
    bv_omega
  · rintro ⟨long, failed⟩
    have props := (@lzmaInitProps_inside_iff mem lzmaData size).mpr long
    refine ⟨props, fun properties _ => ?_,
      lzmaGogogo_readsIn_iff.mpr ⟨props, fun good a read => ?_, ?_⟩⟩
    · rw [lzmaInitProps_val]
      exact ⟨rfl, by change (size - 13).toNat + 13 = _; bv_omega⟩
    · have within : Word.Within (lzmaData + 13) (size - 13).toNat a :=
        lzmaDecode_readsIn (propertiesOf_valid good) _ _ _ _ _ a read
      unfold Word.Within at within ⊢
      bv_omega
    · intro fails i bound
      have enough := failed fails
      rw [lzmaCall_lzmaDecode_failed fails]
      unfold Word.Within
      bv_omega

end Inside

end AuxLoader
