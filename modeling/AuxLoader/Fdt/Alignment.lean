import AuxLoader.Fdt.Termination

namespace AuxLoader.Fdt

open Data

/-! The width of the loads of the walk, and the alignment of those of words. -/

inductive Load
  | byte (address : Word)
  | word (address : Word)

namespace Load

def addresses : Load → List Word
  | .byte address => [address]
  | .word address => Memory.wordAddresses address

def Aligned : Load → Prop
  | .byte _ => True
  | .word address => address.Aligned

@[simp] theorem addresses_byte (address : Word) :
    (Load.byte address).addresses = [address] := rfl

@[simp] theorem addresses_word (address : Word) :
    (Load.word address).addresses = Memory.wordAddresses address := rfl

@[simp] theorem aligned_byte (address : Word) : (Load.byte address).Aligned :=
  trivial

@[simp] theorem aligned_word (address : Word) :
    (Load.word address).Aligned ↔ address.Aligned := Iff.rfl

end Load

/-- The loads of a string function, which reads byte by byte. -/
def byteLoads {α : Type} (scan : Traced Word α) : List Load :=
  scan.reads.map .byte

@[simp] theorem addresses_byteLoads {α : Type} (scan : Traced Word α) :
    (byteLoads scan).flatMap Load.addresses = scan.reads := by
  rw [byteLoads, List.flatMap_map]
  exact List.flatMap_singleton' scan.reads

theorem aligned_of_mem_byteLoads {α : Type} {scan : Traced Word α}
    {load : Load} (member : load ∈ byteLoads scan) : load.Aligned := by
  obtain ⟨address, _, rfl⟩ := List.mem_map.mp member
  exact Load.aligned_byte address

section Iteration

variable (mem : Memory) (blob : Blob) (nodeName propName : CString)

def beginNodeLoads (offset : Word) : List Load :=
  byteLoads (fdtStreq mem nodeName.bytes (blob.p + offset)) ++
    byteLoads (fdtStrlen mem (blob.p + offset))

def propLoads (isNodeFound : Bool) (offset : Word) : List Load :=
  if isNodeFound then
    let fdtProp := blob.p + offset - fdtTagsize
    if fdtProp + FdtProperty.size ≥ blob.t then
      []
    else
      let nameoff := fdtProp + FdtProperty.nameoff
      let curPropName := blob.n + ntohl (mem.word nameoff)
      .word nameoff ::
        if curPropName ≥ blob.t then
          []
        else
          byteLoads (fdtStreq mem propName.bytes curPropName) ++
            [.word (blob.p + offset)]
  else
    [.word (blob.p + offset)]

/-- The loads of one iteration, in order. -/
def iterationLoads (s : WalkState) : List Load :=
  let tagp := blob.p + s.offset
  let tag := ntohl (mem.word tagp)
  .word tagp ::
    if tagp + fdtTagsize ≥ blob.t then
      []
    else if tag = fdtBeginNode then
      beginNodeLoads mem blob nodeName (s.offset + fdtTagsize)
    else if tag = fdtProp then
      propLoads mem blob propName s.isNodeFound (s.offset + fdtTagsize)
    else
      []

theorem addresses_beginNodeLoads (offset : Word) :
    (beginNodeLoads mem blob nodeName offset).flatMap Load.addresses =
      (beginNodeToken mem blob nodeName offset).reads := by
  simp only [beginNodeLoads, List.flatMap_append, addresses_byteLoads,
    beginNodeToken, Traced.reads_bind]
  cases (fdtStrlen mem (blob.p + offset)).val <;> simp

theorem addresses_propLoads (isNodeFound : Bool) (offset : Word) :
    (propLoads mem blob propName isNodeFound offset).flatMap Load.addresses =
      (propToken mem blob propName isNodeFound offset).reads := by
  cases isNodeFound with
  | false => simp [propLoads, propToken, skipProp]
  | true =>
      simp only [propLoads, propToken, if_true]
      split
      next => rfl
      next inside =>
        simp only [List.flatMap_cons, Load.addresses_word, Traced.reads_bind,
          Memory.reads_loadWord, Memory.val_loadWord]
        split
        next => rfl
        next =>
          simp only [List.flatMap_append, addresses_byteLoads,
            Traced.reads_bind]
          -- The length is loaded on a hit and on a miss.
          split <;> simp [skipProp]

/-- Without their widths they are the reads of the iteration. -/
theorem addresses_iterationLoads (s : WalkState) :
    (iterationLoads mem blob nodeName propName s).flatMap Load.addresses =
      (fdtGetPropBody mem blob nodeName propName s).reads := by
  simp only [iterationLoads, fdtGetPropBody, List.flatMap_cons,
    Load.addresses_word, Traced.reads_bind, Memory.reads_loadWord,
    Memory.val_loadWord]
  split
  next => rfl
  next =>
    by_cases endTag : ntohl (mem.word (blob.p + s.offset)) = fdtEnd
    · rw [endTag]
      rfl
    · rw [if_neg endTag]
      split
      next => rw [addresses_beginNodeLoads]
      next =>
        split
        next => rw [addresses_propLoads]
        next => split_ifs <;> rfl

/-! Aligned offsets. -/

variable {mem blob nodeName propName}

theorem fdtTagalign_aligned (x : Word) : (fdtTagalign x).Aligned := by
  rw [Word.Aligned, toNat_fdtTagalign]
  exact Nat.dvd_mul_left ..

/-- Every token ends with the mask, whatever has been added before. -/
theorem Advance.offset_aligned {s u : WalkState}
    (advance : Advance mem blob nodeName propName s u) : u.offset.Aligned := by
  cases advance with
  | beginNode _ _ _ => exact fdtTagalign_aligned _
  | prop _ _ _ => exact fdtTagalign_aligned _
  | endNode _ _ => exact fdtTagalign_aligned _
  | nop _ _ => exact fdtTagalign_aligned _

theorem Leave.ptr_aligned {s : WalkState} {r : PropResult}
    (leave : Leave mem blob propName s (some r)) (block : blob.p.Aligned)
    (aligned : s.offset.Aligned) : r.ptr.Aligned := by
  have null : (0 : Word).Aligned := by decide
  cases leave with
  | outOfRange _ => exact null
  | endTag _ _ => exact null
  | unknown _ _ _ _ _ => exact null
  | propOutOfRange _ _ _ _ => exact null
  | found _ _ _ _ _ => exact (block.add aligned).add (by decide)

theorem propLoads_aligned {isNodeFound : Bool} {offset : Word}
    (block : blob.p.Aligned) (aligned : offset.Aligned) :
    ∀ load ∈ propLoads mem blob propName isNodeFound offset,
      load.Aligned := by
  have lenp : (blob.p + offset).Aligned := block.add aligned
  have nameoff :
      (blob.p + offset - fdtTagsize + FdtProperty.nameoff).Aligned :=
    (lenp.sub (by decide)).add (by decide)
  intro load member
  cases isNodeFound with
  | false =>
      cases List.mem_singleton.mp member
      exact lenp
  | true =>
      simp only [propLoads, if_true] at member
      split at member
      next => cases member
      next =>
        rcases List.mem_cons.mp member with rfl | member
        · exact nameoff
        split at member
        next => cases member
        next =>
          rcases List.mem_append.mp member with scanned | last
          · exact aligned_of_mem_byteLoads scanned
          · cases List.mem_singleton.mp last
            exact lenp

theorem iterationLoads_aligned {s : WalkState} (block : blob.p.Aligned)
    (aligned : s.offset.Aligned) :
    ∀ load ∈ iterationLoads mem blob nodeName propName s, load.Aligned := by
  have beyond : (s.offset + fdtTagsize).Aligned := aligned.add (by decide)
  intro load member
  rw [iterationLoads] at member
  rcases List.mem_cons.mp member with rfl | member
  · exact block.add aligned
  split at member
  next => cases member
  next =>
    split at member
    next =>
      rcases List.mem_append.mp member with scanned | scanned
      · exact aligned_of_mem_byteLoads scanned
      · exact aligned_of_mem_byteLoads scanned
    next =>
      split at member
      next => exact propLoads_aligned block beyond load member
      next => cases member

end Iteration

section Lookup

variable {mem : Memory} {data : Word} {nodeName propName : CString}

theorem offset_aligned {s : WalkState}
    (reached : (walkBody mem data nodeName propName).Reaches .start s) :
    s.offset.Aligned := by
  induction reached with
  | refl => exact show (0 : Word).Aligned by decide
  | tail _ step _ => exact (advance_of_step step).offset_aligned

/-- Every iteration starts at an aligned offset and loads aligned words, and
so the value that is returned is aligned. -/
theorem fdtGetProp_aligned (mem : Memory) (data : Word)
    (nodeName propName : CString) (aligned : data.Aligned)
    (offDtStruct :
      (ntohl (mem.word (data + FdtHeader.offDtStruct))).Aligned) :
    (∀ s, (walkBody mem data nodeName propName).Reaches .start s →
      s.offset.Aligned ∧
        (walkBody mem data nodeName propName s).reads =
          (iterationLoads mem (headerBlob mem data) nodeName propName s).flatMap
            Load.addresses ∧
        ∀ load ∈ iterationLoads mem (headerBlob mem data) nodeName propName s,
          load.Aligned) ∧
      ∀ r, (fdtGetProp mem data nodeName propName).val = some r →
        r.ptr.Aligned := by
  have block : (headerBlob mem data).p.Aligned := aligned.add offDtStruct
  constructor
  · intro s reached
    have offset := offset_aligned reached
    exact ⟨offset, (addresses_iterationLoads ..).symm,
      iterationLoads_aligned block offset⟩
  · intro r returned
    obtain ⟨s, reached, exit⟩ := fdtGetProp_val_eq_some_iff.mp returned
    exact (leave_of_exit exit).ptr_aligned block (offset_aligned reached)

end Lookup

/-! An odd length that wraps: the offset comes back to the name offset of the
same property, which reads as a NOP tag. -/

def wrappedLenMemory : Memory :=
  .ofBytes 0x84805000 (headerBytes 100 48 40 ++ (CString.lit "load").stored ++
    [0, 0, 0] ++ Memory.beBytes fdtBeginNode ++
    (CString.lit "kernel@1").stored ++ [0, 0, 0] ++
    [fdtProp, 0xfffffffb, fdtNop, fdtProp, 4, 0, 0x80208000, fdtEndNode,
      fdtEnd].flatMap Memory.beBytes)

theorem fdtGetProp_aligned_wrappedLen :
    (walkBody wrappedLenMemory 0x84805000 (.lit "kernel@1")
        (.lit "load")).stateAt .start 2 = some ⟨24, true⟩ ∧
      Word.Aligned 0x84805058 := by
  refine ⟨by decide +kernel, ?_⟩
  exact (fdtGetProp_aligned wrappedLenMemory 0x84805000 (.lit "kernel@1")
    (.lit "load") (by decide) (by decide +kernel)).2 ⟨0x84805058, 4⟩
      (by decide +kernel)

end AuxLoader.Fdt
