import AuxLoader.Fdt.Walk

namespace AuxLoader.Fdt

open Data

/-! When the walk ends. Only a token that runs past the top of the 32-bit
offset range can take it back to where it has been. -/

section Progress

variable {mem : Memory} {blob : Blob} {nodeName propName : CString}

/-- The token's aligned end does not fit the 32-bit offset. -/
def TokenWraps (mem : Memory) (blob : Blob) (offset : Word) : Prop :=
  (blob.tagAt mem offset = fdtBeginNode ∧
    ∃ n, FirstNul mem (blob.p + offset + fdtTagsize) n ∧
      2 ^ 32 ≤ roundUp (offset.toNat + (4 + (n + 1)))) ∨
  (blob.tagAt mem offset = fdtProp ∧
    2 ^ 32 ≤ roundUp (offset.toNat + (12 + (blob.lenAt mem offset).toNat))) ∨
  ((blob.tagAt mem offset = fdtEndNode ∨ blob.tagAt mem offset = fdtNop) ∧
    2 ^ 32 ≤ roundUp (offset.toNat + 4))

theorem afterName_eq (offset : Word) (n : Nat) :
    offset + fdtTagsize + (BitVec.ofNat 32 n + 1) =
      offset + BitVec.ofNat 32 (4 + (n + 1)) := by
  rw [show BitVec.ofNat 32 n + 1 = BitVec.ofNat 32 (n + 1) from
    (BitVec.ofNat_add n 1).symm]
  exact Word.add_ofNat_add_ofNat offset 4 (n + 1)

theorem afterProp_eq (offset len : Word) :
    offset + fdtTagsize + (FdtProperty.size - fdtTagsize + len) =
      offset + BitVec.ofNat 32 (12 + len.toNat) := by
  have header : fdtTagsize + (FdtProperty.size - fdtTagsize) =
      BitVec.ofNat 32 12 := by decide
  rw [BitVec.ofNat_add, ← header, BitVec.ofNat_toNat, BitVec.setWidth_eq,
    BitVec.add_assoc, BitVec.add_assoc]

theorem toNat_fdtTagalign_add {offset : Word} {length : Nat}
    (fits : roundUp (offset.toNat + length) < 2 ^ 32) :
    (fdtTagalign (offset + BitVec.ofNat 32 length)).toNat =
      roundUp (offset.toNat + length) := by
  have bound : offset.toNat + length + 3 < 2 ^ 32 := by
    unfold roundUp at fits
    omega
  rw [toNat_fdtTagalign, Word.toNat_add_ofNat (by omega),
    Nat.mod_eq_of_lt bound]
  rfl

theorem offset_lt_fdtTagalign_add {offset : Word} {length : Nat}
    (positive : 0 < length)
    (fits : roundUp (offset.toNat + length) < 2 ^ 32) :
    offset.toNat <
      (fdtTagalign (offset + BitVec.ofNat 32 length)).toNat := by
  rw [toNat_fdtTagalign_add fits]
  have := le_roundUp (offset.toNat + length)
  omega

theorem Advance.offset_lt {s u : WalkState}
    (advance : Advance mem blob nodeName propName s u)
    (fits : ¬ TokenWraps mem blob s.offset) :
    s.offset.toNat < u.offset.toNat := by
  simp only [TokenWraps, not_or, not_and, not_exists, Nat.not_le] at fits
  obtain ⟨nameFits, propFits, tagFits⟩ := fits
  cases advance with
  | beginNode _ tag name =>
      rw [afterName_eq]
      exact offset_lt_fdtTagalign_add (by omega) (nameFits tag _ name)
  | prop _ tag _ =>
      rw [afterProp_eq]
      exact offset_lt_fdtTagalign_add (by omega) (propFits tag)
  | endNode _ tag =>
      exact offset_lt_fdtTagalign_add (show 0 < 4 by decide)
        (tagFits (.inl tag))
  | nop _ tag =>
      exact offset_lt_fdtTagalign_add (show 0 < 4 by decide)
        (tagFits (.inr tag))

end Progress

/-! What an accepted header guarantees. -/

structure HeaderAccepted (mem : Memory) (data dataSize : Word) : Prop where
  magic : mem.beWord data = fdtMagic
  totalsize : mem.beWord (data + FdtHeader.totalsize) ≤ dataSize
  version :
    fdtFirstSupportedVersion ≤ mem.beWord (data + FdtHeader.version)
  lastCompVersion :
    mem.beWord (data + FdtHeader.lastCompVersion) ≤ fdtLastSupportedVersion
  structPositive : mem.beWord (data + FdtHeader.offDtStruct) ≠ 0
  structInside : mem.beWord (data + FdtHeader.offDtStruct) <
    mem.beWord (data + FdtHeader.totalsize)
  stringsPositive : mem.beWord (data + FdtHeader.offDtStrings) ≠ 0
  stringsInside : mem.beWord (data + FdtHeader.offDtStrings) <
    mem.beWord (data + FdtHeader.totalsize)

theorem headerAccepted_of_check {mem : Memory} {data dataSize : Word}
    (accepted : fdtCheckHeader mem data dataSize = 0) :
    HeaderAccepted mem data dataSize := by
  simp only [fdtCheckHeader, ntohl_word] at accepted
  split at accepted
  next => cases accepted
  next magic =>
    split at accepted
    next => cases accepted
    next totalsize =>
      split at accepted
      next => cases accepted
      next version =>
        split at accepted
        next => cases accepted
        next lastComp =>
          split at accepted
          next => cases accepted
          next offStruct =>
            split at accepted
            next => cases accepted
            next offStrings =>
              simp only [not_or, ge_iff_le, BitVec.not_le] at offStruct offStrings
              exact {
                magic := not_not.mp magic
                totalsize := BitVec.not_lt.mp totalsize
                version := BitVec.not_lt.mp version
                lastCompVersion := BitVec.not_lt.mp lastComp
                structPositive := offStruct.1
                structInside := offStruct.2
                stringsPositive := offStrings.1
                stringsInside := offStrings.2 }

/-- The accepted versions leave a zero byte in the header. -/
theorem HeaderAccepted.nul {mem : Memory} {data dataSize : Word}
    (accepted : HeaderAccepted mem data dataSize) :
    mem (data + FdtHeader.lastCompVersion) = 0 := by
  have low := accepted.lastCompVersion
  have top : mem (data + FdtHeader.lastCompVersion) =
      (mem.beWord (data + FdtHeader.lastCompVersion)).byte 3 := by
    rw [Memory.beWord, Word.byte_three_pack]
  rw [top]
  generalize mem.beWord (data + FdtHeader.lastCompVersion) = word at low
  have small : word.toNat ≤ 17 := low
  apply BitVec.eq_of_toNat_eq
  simp only [Word.byte, BitVec.toNat_setWidth, BitVec.toNat_ushiftRight,
    Nat.shiftRight_eq_div_pow]
  change _ = 0
  omega

section Lookup

variable {mem : Memory} {data dataSize : Word} {nodeName propName : CString}

end Lookup

def headerBytes (totalsize offDtStruct offDtStrings : Word) : List Byte :=
  [fdtMagic, totalsize, offDtStruct, offDtStrings, 0, 17, 16, 0, 0, 0].flatMap
    Memory.beBytes

def loadNodeTokens (len : Word) : List Byte :=
  Memory.beBytes fdtBeginNode ++ (CString.lit "kernel@1").stored ++ [0, 0, 0] ++
    [fdtProp, len, 0].flatMap Memory.beBytes

/-- A node `kernel@1` with a property `load`. -/
def loadNodeMemory : Memory :=
  .ofBytes 0x84805000 (headerBytes 88 48 40 ++ (CString.lit "load").stored ++
    [0, 0, 0] ++ loadNodeTokens 4 ++
    [0x80208000, fdtEndNode, fdtEnd].flatMap Memory.beBytes)

end AuxLoader.Fdt
