import AuxLoader.Fdt.Document
import AuxLoader.Fit.Unpack

namespace AuxLoader.Fit

open Data Fdt

/-! Whether the kernel parameters come from one node. -/

def kernelPropNames : List CString :=
  [.lit "description", .lit "load", .lit "entry", .lit "data",
    .lit "compression"]

/-- The first node with the kernel's name that has one of the properties has
all of them. -/
def FirstHasAll (root : Node) : Prop :=
  ∃ (i : Nat) (entry : Entry), root.entries[i]? = some entry ∧
    entry.name = fitKernelNodeName ∧
    (∀ propName ∈ kernelPropNames, entry.Has propName) ∧
    ∀ (j : Nat) (other : Entry), j < i → root.entries[j]? = some other →
      other.name = fitKernelNodeName →
        ∀ propName ∈ kernelPropNames, ¬ other.Has propName

theorem firstHasAll_iff {root : Node} :
    FirstHasAll root ↔ ∃ number, ∀ propName ∈ kernelPropNames,
      FirstOwner root.entries fitKernelNodeName propName number := by
  constructor
  · rintro ⟨i, entry, place, name, all, none⟩
    exact ⟨i, fun propName member => ⟨⟨entry, place, name, all propName member⟩,
      fun j other before there named =>
        none j other before there named propName member⟩⟩
  · rintro ⟨i, owners⟩
    have description : CString.lit "description" ∈ kernelPropNames := by
      simp [kernelPropNames]
    obtain ⟨entry, place, name, _⟩ := (owners _ description).owns
    refine ⟨i, entry, place, name, fun propName member => ?_,
      fun j other before there named propName member =>
        (owners propName member).first j other before there named⟩
    obtain ⟨other, there, _, has⟩ := (owners propName member).owns
    cases place.symm.trans there
    exact has

def OneKernelNode (root : Node) : Prop :=
  ∀ (i j : Nat) (entry other : Entry), root.entries[i]? = some entry →
    root.entries[j]? = some other → entry.name = fitKernelNodeName →
      other.name = fitKernelNodeName → i = j

theorem firstHasAll_of_oneKernelNode {root : Node} (one : OneKernelNode root)
    (owned : ∀ propName ∈ kernelPropNames, ∃ number,
      FirstOwner root.entries fitKernelNodeName propName number) :
    FirstHasAll root := by
  rw [firstHasAll_iff]
  obtain ⟨number, first⟩ := owned (.lit "description")
    (by simp [kernelPropNames])
  obtain ⟨entry, place, name, _⟩ := first.owns
  refine ⟨number, fun propName member => ?_⟩
  obtain ⟨i, owner⟩ := owned propName member
  obtain ⟨other, there, named, _⟩ := owner.owns
  rwa [one number i entry other place there name named]

/-- The five values found for the kernel are those of properties of one node. -/
def FromOneNode {root : Node} (blob : Serialisation root) (data : Word)
    (image : FitImage) : Prop :=
  ∃ number,
    blob.ValueOf data number (.lit "description") image.kernelName ∧
      blob.ValueOf data number (.lit "load") image.load ∧
      blob.ValueOf data number (.lit "entry") image.entry ∧
      blob.ValueOf data number (.lit "data") image.kernel ∧
      blob.ValueOf data number (.lit "compression") image.kernelCompr

section OneNode

variable {platform : Platform} {decode : LzmaDecoder} {m next : Machine}
  {root : Node} {blob : Serialisation root}

theorem Finds.valueOf_iff {mem : Memory} {data : Word} {propName : CString}
    {r : PropResult} {number : Nat} (held : mem.Holds data blob.bytes)
    (fits : data.toNat + blob.bytes.length < 2 ^ 32)
    (finds : Finds mem data fitKernelNodeName propName r) :
    blob.ValueOf data number propName r ↔
      FirstOwner root.entries fitKernelNodeName propName number := by
  have walked := (blob.walk held fits fitKernelNodeName propName).1
  have same : r = blob.result data fitKernelNodeName propName :=
    Option.some.inj (finds.1.symm.trans walked)
  subst same
  exact blob.valueOf_result_iff finds.2

theorem Finds.firstOwner {mem : Memory} {data : Word} {propName : CString}
    {r : PropResult} (held : mem.Holds data blob.bytes)
    (fits : data.toNat + blob.bytes.length < 2 ^ 32)
    (finds : Finds mem data fitKernelNodeName propName r) :
    ∃ number, FirstOwner root.entries fitKernelNodeName propName number := by
  have walked := (blob.walk held fits fitKernelNodeName propName).1
  have same : r = blob.result data fitKernelNodeName propName :=
    Option.some.inj (finds.1.symm.trans walked)
  obtain ⟨value, _, _, owner, _⟩ := blob.exists_of_result (same ▸ finds.2)
  exact ⟨value.1.1, owner⟩

/-- Each value is the first of its name in document order, so they belong
together exactly when the first node that has any of them has them all. -/
theorem fromOneNode_iff {image : FitImage} (accepts : platform.Accepts m image)
    (held : m.mem.Holds platform.kernelDataStart blob.bytes)
    (fits : platform.kernelDataStart.toNat + blob.bytes.length < 2 ^ 32) :
    FromOneNode blob platform.kernelDataStart image ↔ FirstHasAll root := by
  rw [firstHasAll_iff, FromOneNode]
  simp only [accepts.kernelName.valueOf_iff held fits,
    accepts.load.valueOf_iff held fits, accepts.entry.valueOf_iff held fits,
    accepts.kernel.valueOf_iff held fits,
    accepts.kernelCompr.valueOf_iff held fits, kernelPropNames,
    List.forall_mem_cons, List.not_mem_nil, false_implies, implies_true,
    and_true]

/-- The values that the handler has used for the kernel when it returns 0. -/
def KernelFromOneNode (platform : Platform) (decode : LzmaDecoder)
    (m next : Machine) (blob : Serialisation root) : Prop :=
  ∃ image, platform.Accepts m image ∧ Booted platform decode image m next ∧
    FromOneNode blob platform.kernelDataStart image

theorem kernelFromOneNode_iff
    (held : m.mem.Holds platform.kernelDataStart blob.bytes)
    (fits : platform.kernelDataStart.toNat + blob.bytes.length < 2 ^ 32)
    (returned : platform.handleFit decode m = some (0, next)) :
    KernelFromOneNode platform decode m next blob ↔ FirstHasAll root := by
  obtain ⟨image, accepts, _, booted⟩ := handleFit_zero returned
  rw [← fromOneNode_iff accepts held fits]
  constructor
  · rintro ⟨other, accepted, _, one⟩
    cases accepts.unique accepted
    exact one
  · intro one
    exact ⟨image, accepts, booted, one⟩

/-- Only twins can mix. -/
theorem kernelFromOneNode_of_oneKernelNode (one : OneKernelNode root)
    (held : m.mem.Holds platform.kernelDataStart blob.bytes)
    (fits : platform.kernelDataStart.toNat + blob.bytes.length < 2 ^ 32)
    (returned : platform.handleFit decode m = some (0, next)) :
    KernelFromOneNode platform decode m next blob := by
  obtain ⟨image, accepts, _, booted⟩ := handleFit_zero returned
  refine ⟨image, accepts, booted, (fromOneNode_iff accepts held fits).mpr
    (firstHasAll_of_oneKernelNode one ?_)⟩
  simp only [kernelPropNames, List.forall_mem_cons, List.not_mem_nil,
    false_implies, implies_true, and_true]
  exact ⟨accepts.kernelName.firstOwner held fits,
    accepts.load.firstOwner held fits, accepts.entry.firstOwner held fits,
    accepts.kernel.firstOwner held fits,
    accepts.kernelCompr.firstOwner held fits⟩

end OneNode

/-! A tree with one kernel, and one in which `/boot` has a node of the kernel's
name with a load address of its own. -/

def imageNodes : Nodes :=
  .cons (.mk (.lit "kernel@1")
    [⟨.lit "description", (CString.lit "Linux").stored⟩,
      ⟨.lit "load", Memory.beBytes 0x80208000⟩,
      ⟨.lit "entry", Memory.beBytes 0x80208000⟩,
      ⟨.lit "data", [1, 2, 3, 4]⟩,
      ⟨.lit "compression", (CString.lit "lzma").stored⟩] .nil)
  (.cons (.mk (.lit "fdt@1")
    [⟨.lit "data", [0xd0, 0x0d, 0xfe, 0xed]⟩] .nil) .nil)

def soleTree : Node :=
  .mk (.lit "") [] (.cons (.mk (.lit "images") [] imageNodes) .nil)

def soleStream : List Token :=
  [.beginNode (.lit ""), .beginNode (.lit "images")] ++
    kernelNode 0x80208000 [1, 2, 3, 4] ++ dtbNode [0xd0, 0x0d, 0xfe, 0xed] ++
    [.endNode, .endNode]

def soleBlob : Serialisation soleTree where
  bytes := headerBytes 252 80 40 ++ fitStrings ++ structBlock soleStream
  offDtStruct := 80
  offDtStrings := 40
  stream := soleStream
  header := by decide +kernel
  size := by decide +kernel
  totalsizeField := by decide +kernel
  structField := by decide +kernel
  stringsField := by decide +kernel
  aligned := by decide +kernel
  tokens := by decide +kernel
  block := by decide +kernel
  names := by
    intro nameoff property member
    exact prefix_drop_fitStrings (@fitNodes_names 0x80208000 nameoff
      [1, 2, 3, 4] [0xd0, 0x0d, 0xfe, 0xed] property
      (by simpa [soleStream] using member))

theorem kernelFromOneNode_iff_sole :
    ∃ next, (linkedPlatform 252 (by decide)).handleFit rejectAll
        (fitMachine soleBlob.bytes) = some (0, next) ∧
      KernelFromOneNode (linkedPlatform 252 (by decide)) rejectAll
        (fitMachine soleBlob.bytes) next soleBlob := by
  have accepts : (linkedPlatform 252 (by decide)).Accepts
      (fitMachine soleBlob.bytes) corruptImage := by
    decide +kernel
  obtain ⟨next, returned, _⟩ := handleFit_returns rejectAll accepts
    (by unfold DtbCopyEnds; decide)
  refine ⟨next, returned, (kernelFromOneNode_iff (by decide +kernel)
    (by decide +kernel) returned).mpr ⟨2, _, rfl, rfl, by decide +kernel, ?_⟩⟩
  intro j other before place name
  have others : ∀ j : Fin 2, ∀ entry ∈ soleTree.entries[j.val]?,
      entry.name ≠ fitKernelNodeName := by
    decide +kernel
  exact absurd name (others ⟨j, before⟩ other place)

def bootNodes : Nodes :=
  .cons (.mk (.lit "kernel@1")
    [⟨.lit "load", Memory.beBytes 0x90000000⟩] .nil) .nil

def twinTree : Node :=
  .mk (.lit "") []
    (.cons (.mk (.lit "boot") [] bootNodes)
      (.cons (.mk (.lit "images") [] imageNodes) .nil))

def twinStream : List Token :=
  [.beginNode (.lit ""), .beginNode (.lit "boot"),
    .beginNode (.lit "kernel@1"),
    .prop 12 ⟨.lit "load", Memory.beBytes 0x90000000⟩, .endNode, .endNode,
    .beginNode (.lit "images")] ++ kernelNode 0x80208000 [1, 2, 3, 4] ++
    dtbNode [0xd0, 0x0d, 0xfe, 0xed] ++ [.endNode, .endNode]

def twinBlob : Serialisation twinTree where
  bytes := headerBytes 304 80 40 ++ fitStrings ++ structBlock twinStream
  offDtStruct := 80
  offDtStrings := 40
  stream := twinStream
  header := by decide +kernel
  size := by decide +kernel
  totalsizeField := by decide +kernel
  structField := by decide +kernel
  stringsField := by decide +kernel
  aligned := by decide +kernel
  tokens := by decide +kernel
  block := by decide +kernel
  names := by
    intro nameoff property member
    simp only [twinStream, List.mem_append, List.mem_cons, reduceCtorEq,
      Token.prop.injEq, List.not_mem_nil, false_or, or_false, or_assoc]
      at member
    rcases member with ⟨rfl, rfl⟩ | node
    · decide +kernel
    · exact prefix_drop_fitStrings
        (fitNodes_names (List.mem_append.mpr node))

def twinMachine : Machine := fitMachine twinBlob.bytes

def twinImage : FitImage where
  kernelName := ⟨0x848050b4, 6⟩
  load := ⟨0x84805080, 4⟩
  kernelLoad := 0x90000000
  entry := ⟨0x848050d8, 4⟩
  kernelEp := 0x80208000
  kernel := ⟨0x848050e8, 4⟩
  kernelCompr := ⟨0x848050f8, 5⟩
  dtb := ⟨0x8480511c, 4⟩

theorem twinMachine_accepts :
    (linkedPlatform 304 (by decide)).Accepts twinMachine twinImage := by
  decide +kernel

theorem twinMachine_returns :
    ∃ next, (linkedPlatform 304 (by decide)).handleFit rejectAll twinMachine =
      some (0, next) := by
  obtain ⟨next, returned, _⟩ := handleFit_returns rejectAll twinMachine_accepts
    (by unfold DtbCopyEnds; decide)
  exact ⟨next, returned⟩

/-- The load address is that of node 2, the description that of node 4. -/
theorem twinTree_mixes :
    twinTree.SiblingsDiffer ∧
      twinMachine.mem.Holds 0x84805000 twinBlob.bytes ∧
      ∃ next, (linkedPlatform 304 (by decide)).handleFit rejectAll twinMachine =
          some (0, next) ∧
        ¬ KernelFromOneNode (linkedPlatform 304 (by decide)) rejectAll
          twinMachine next twinBlob := by
  have load : ∀ value ∈ twinBlob.values,
      twinImage.load = twinBlob.resultAt 0x84805000 value →
        value.1.1 = 2 := by
    decide +kernel
  have description : ∀ value ∈ twinBlob.values,
      twinImage.kernelName = twinBlob.resultAt 0x84805000 value →
        value.1.1 = 4 := by
    decide +kernel
  obtain ⟨next, returned⟩ := twinMachine_returns
  refine ⟨?_, by decide +kernel, next, returned, ?_⟩
  · simp only [twinTree, bootNodes, imageNodes, Node.SiblingsDiffer,
      Nodes.SiblingsDiffer, Nodes.names]
    decide +kernel
  · rintro ⟨image, accepts, _, number, name, loads, _⟩
    cases accepts.unique twinMachine_accepts
    obtain ⟨first, member, rfl, _, same⟩ := name
    obtain ⟨second, other, numbers, _, also⟩ := loads
    rw [load second other also, description first member same] at numbers
    exact absurd numbers (by decide)

end AuxLoader.Fit
