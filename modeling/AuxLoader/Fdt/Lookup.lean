import Mathlib.Data.FinEnum
import Mathlib.Data.Fintype.Card
import Mathlib.Data.Fintype.Prod
import AuxLoader.Board
import AuxLoader.Data.CString
import AuxLoader.Data.Loop

namespace AuxLoader.Fdt

open Data

/-! The flattened device tree reader of `fdt.c`. -/

def fdtMagic : Word := 0xd00dfeed
def fdtTagsize : Word := 4

def fdtBeginNode : Word := 0x1
def fdtEndNode : Word := 0x2
def fdtProp : Word := 0x3
def fdtNop : Word := 0x4
def fdtEnd : Word := 0x9

def fdtFirstSupportedVersion : Word := 0x10
def fdtLastSupportedVersion : Word := 0x11

/-- `FDT_TAGALIGN`, with the wrap of its 32-bit addition. -/
def fdtTagalign (x : Word) : Word :=
  (x + fdtTagsize - 1) &&& ~~~(fdtTagsize - 1)

/-! Field offsets of `struct fdt_header` and `struct fdt_property`. -/

namespace FdtHeader

def totalsize : Word := 4
def offDtStruct : Word := 8
def offDtStrings : Word := 12
def version : Word := 20
def lastCompVersion : Word := 24

end FdtHeader

namespace FdtProperty

def nameoff : Word := 8
def size : Word := 12

end FdtProperty

/-- Compares the string argument with the one at `s2`. The first `s2`
character that differs or ends the string is the last one read. -/
def fdtStreq (mem : Memory) : List Byte → Word → Traced Word Bool
  | [], s2 => do
      let d ← mem.loadByte s2
      return d = 0
  | c :: s1, s2 => do
      let d ← mem.loadByte s2
      if d = 0 then
        return false
      else if c ≠ d then
        return false
      else
        fdtStreq mem s1 (s2 + 1)

def fdtStrlenBody (mem : Memory) : Loop Word (Word × Word) Word :=
  fun (s, len) => do
    let c ← mem.loadByte s
    if c ≠ 0 then
      return .inl (s + 1, len + 1)
    else
      return .inr len

/-- `none` when memory holds no NUL at all and the scan goes round it. -/
def fdtStrlen (mem : Memory) (s : Word) : Traced Word (Option Word) :=
  (fdtStrlenBody mem).run (2 ^ 64) (s, 0)

def fdtCheckHeader (mem : Memory) (data dataSize : Word) : Int :=
  let magic := ntohl (mem.word data)
  let totalsize := ntohl (mem.word (data + FdtHeader.totalsize))
  let version := ntohl (mem.word (data + FdtHeader.version))
  let offDtStruct := ntohl (mem.word (data + FdtHeader.offDtStruct))
  let offDtStrings := ntohl (mem.word (data + FdtHeader.offDtStrings))
  let lastCompVersion := ntohl (mem.word (data + FdtHeader.lastCompVersion))
  if magic ≠ fdtMagic then
    -1
  else if dataSize < totalsize then
    -2
  else if version < fdtFirstSupportedVersion then
    -3
  else if lastCompVersion > fdtLastSupportedVersion then
    -4
  else if offDtStruct = 0 ∨ offDtStruct ≥ totalsize then
    -5
  else if offDtStrings = 0 ∨ offDtStrings ≥ totalsize then
    -6
  else
    0

/-- The pointers `fdt_get_prop` derives from the header: the structure block,
the strings heap and the data tail. -/
structure Blob where
  p : Word
  n : Word
  t : Word
  deriving DecidableEq, Repr

structure WalkState where
  offset : Word
  isNodeFound : Bool
  deriving DecidableEq, Repr

/-- The returned pointer and the length stored through `lenp_ret`. -/
structure PropResult where
  ptr : Word
  len : Word
  deriving DecidableEq, Repr

/-- `return NULL`, after the 0 that was stored on entry. -/
def PropResult.null : PropResult := ⟨0, 0⟩

namespace WalkState

def ofPair : Word × Bool ≃ WalkState where
  toFun s := ⟨s.1, s.2⟩
  invFun s := ⟨s.offset, s.isNodeFound⟩

instance : Fintype WalkState := .ofEquiv _ ofPair

def start : WalkState := ⟨0, false⟩

end WalkState

/-- What an iteration of the walk comes to; the inner `none` stands for a node
name that never ends. -/
abbrev WalkNext := WalkState ⊕ Option PropResult

section Iteration

variable (mem : Memory) (blob : Blob)

/-- `case FDT_BEGIN_NODE`, with `offset` past the tag. -/
def beginNodeToken (nodeName : CString) (offset : Word) :
    Traced Word WalkNext := do
  let found ← fdtStreq mem nodeName.bytes (blob.p + offset)
  match ← fdtStrlen mem (blob.p + offset) with
  | none => return .inr none
  | some len => return .inl ⟨fdtTagalign (offset + (len + 1)), found⟩

def skipProp (isNodeFound : Bool) (offset : Word) : Traced Word WalkNext := do
  let len := ntohl (← mem.loadWord (blob.p + offset))
  return .inl
    ⟨fdtTagalign (offset + (FdtProperty.size - fdtTagsize + len)), isNodeFound⟩

/-- `case FDT_PROP`, with `offset` past the tag. -/
def propToken (propName : CString) (isNodeFound : Bool) (offset : Word) :
    Traced Word WalkNext := do
  if isNodeFound then
    let fdtProp := blob.p + offset - fdtTagsize
    if fdtProp + FdtProperty.size ≥ blob.t then
      return .inr (some .null)
    else
      let nameoff ← mem.loadWord (fdtProp + FdtProperty.nameoff)
      let curPropName := blob.n + ntohl nameoff
      if curPropName ≥ blob.t then
        return .inr (some .null)
      else if ← fdtStreq mem propName.bytes curPropName then
        let len := ntohl (← mem.loadWord (blob.p + offset))
        return .inr (some ⟨fdtProp + FdtProperty.size, len⟩)
      else
        skipProp mem blob isNodeFound offset
  else
    skipProp mem blob isNodeFound offset

/-- The body of the `while(1)` loop. The tag is read before it is range
checked, as in the source. -/
def fdtGetPropBody (nodeName propName : CString) :
    Loop Word WalkState (Option PropResult) := fun s => do
  let tagp := blob.p + s.offset
  let tag := ntohl (← mem.loadWord tagp)
  if tagp + fdtTagsize ≥ blob.t then
    return .inr (some .null)
  else
    let offset := s.offset + fdtTagsize
    if tag = fdtEnd then
      return .inr (some .null)
    else if tag = fdtBeginNode then
      beginNodeToken mem blob nodeName offset
    else if tag = fdtProp then
      propToken mem blob propName s.isNodeFound offset
    else if tag = fdtEndNode then
      return .inl ⟨fdtTagalign offset, false⟩
    else if tag = fdtNop then
      return .inl ⟨fdtTagalign offset, s.isNodeFound⟩
    else
      return .inr (some .null)

end Iteration

def headerBlob (mem : Memory) (data : Word) : Blob where
  p := data + ntohl (mem.word (data + FdtHeader.offDtStruct))
  n := data + ntohl (mem.word (data + FdtHeader.offDtStrings))
  t := data + ntohl (mem.word (data + FdtHeader.totalsize))

/-- `none` when the walk never ends: the fuel is the number of walk states.
The length word of a match is read as for a non-NULL `lenp_ret`. -/
def fdtGetProp (mem : Memory) (data : Word) (nodeName propName : CString) :
    Traced Word (Option PropResult) := do
  let offDtStruct := ntohl (← mem.loadWord (data + FdtHeader.offDtStruct))
  let offDtStrings := ntohl (← mem.loadWord (data + FdtHeader.offDtStrings))
  let totalsize := ntohl (← mem.loadWord (data + FdtHeader.totalsize))
  let blob : Blob := ⟨data + offDtStruct, data + offDtStrings, data + totalsize⟩
  let walk ← (fdtGetPropBody mem blob nodeName propName).run (2 ^ 33) .start
  return walk.join

end AuxLoader.Fdt
