import AuxLoader.Fdt.Walk

namespace AuxLoader.Fdt

open Data

/-! Device trees and their flattened form. -/

structure Property where
  name : CString
  value : List Byte
  deriving DecidableEq

mutual
/-- A node lists its properties before its sub-nodes. -/
inductive Node
  | mk (name : CString) (properties : List Property) (children : Nodes)

inductive Nodes
  | nil
  | cons (head : Node) (tail : Nodes)
end

inductive Event
  | beginNode (name : CString)
  | prop (property : Property)
  | endNode
  deriving DecidableEq

mutual
def Node.events : Node → List Event
  | .mk name properties children =>
      .beginNode name :: (properties.map .prop ++
        (children.events ++ [.endNode]))

def Nodes.events : Nodes → List Event
  | .nil => []
  | .cons head tail => head.events ++ tail.events
end

mutual
def Node.located : Node → List (CString × Property)
  | .mk name properties children =>
      properties.map (Prod.mk name) ++ children.located

def Nodes.located : Nodes → List (CString × Property)
  | .nil => []
  | .cons head tail => head.located ++ tail.located
end

/-! What a reader finds that only remembers the node tag it met last. -/

/-- The properties of a run of events, each with the node entered last;
`none` once a node has been left. -/
def entered : Option CString → List Event →
    List (Option CString × Property)
  | _, [] => []
  | _, .beginNode name :: rest => entered (some name) rest
  | node, .prop property :: rest => (node, property) :: entered node rest
  | _, .endNode :: rest => entered none rest

theorem entered_properties (node : Option CString)
    (properties : List Property) (rest : List Event) :
    entered node (properties.map .prop ++ rest) =
      properties.map (Prod.mk node) ++ entered node rest := by
  induction properties with
  | nil => rfl
  | cons property properties ih =>
      simp only [List.map_cons, List.cons_append, entered, ih]

mutual
theorem Node.entered_events (node : Node) (before : Option CString)
    (rest : List Event) :
    entered before (node.events ++ rest) =
      node.located.map (Prod.map some id) ++ entered none rest := by
  cases node with
  | mk name properties children =>
      have inner := children.entered_events (some name) rest
      simp only [Node.events, List.cons_append, entered,
        List.append_assoc, entered_properties, List.nil_append, inner,
        Node.located, List.map_append, List.map_map]
      rfl

/-- Sub-nodes are followed by the end of their parent, so that no property
comes after them that the reader could take for one of theirs. -/
theorem Nodes.entered_events (nodes : Nodes) (before : Option CString)
    (rest : List Event) :
    entered before (nodes.events ++ .endNode :: rest) =
      nodes.located.map (Prod.map some id) ++ entered none rest := by
  cases nodes with
  | nil => rfl
  | cons head tail =>
      have first := head.entered_events before
        (tail.events ++ .endNode :: rest)
      have others := tail.entered_events none rest
      simp only [Nodes.events, List.append_assoc, first, others,
        Nodes.located, List.map_append]
end

/-- The last node tag is enough to tell the parent of every property. -/
theorem Node.entered_events_eq_located (node : Node) :
    entered none node.events = node.located.map (Prod.map some id) := by
  have all := node.entered_events none []
  simpa [entered] using all

/-! Tokens. -/

/-- Zero bytes up to the next multiple of four. -/
def padded (bytes : List Byte) : List Byte :=
  bytes ++ List.replicate (roundUp bytes.length - bytes.length) 0

@[simp] theorem length_padded (bytes : List Byte) :
    (padded bytes).length = roundUp bytes.length := by
  have := le_roundUp bytes.length
  simp only [padded, List.length_append, List.length_replicate]
  omega

/-- The tokens of a structure block; a property says where in the strings
block its name is. -/
inductive Token
  | beginNode (name : CString)
  | prop (nameoff : Word) (property : Property)
  | endNode
  | nop
  deriving DecidableEq

namespace Token

def bytes : Token → List Byte
  | .beginNode name => Memory.beBytes fdtBeginNode ++ padded name.stored
  | .prop nameoff property =>
      Memory.beBytes fdtProp ++
        (Memory.beBytes (BitVec.ofNat 32 property.value.length) ++
          (Memory.beBytes nameoff ++ padded property.value))
  | .endNode => Memory.beBytes fdtEndNode
  | .nop => Memory.beBytes fdtNop

def event? : Token → Option Event
  | .beginNode name => some (.beginNode name)
  | .prop _ property => some (.prop property)
  | .endNode => some .endNode
  | .nop => none

theorem four_dvd_length_bytes (token : Token) : 4 ∣ token.bytes.length := by
  cases token with
  | beginNode name =>
      simp only [bytes, List.length_append, Memory.length_beBytes,
        length_padded, roundUp]
      omega
  | prop nameoff property =>
      simp only [bytes, List.length_append, Memory.length_beBytes,
        length_padded, roundUp]
      omega
  | endNode => exact Nat.dvd_refl 4
  | nop => exact Nat.dvd_refl 4

end Token

def structBlock (stream : List Token) : List Byte :=
  stream.flatMap Token.bytes ++ Memory.beBytes fdtEnd

def valueOffsets : Nat → List Token → List Nat
  | _, [] => []
  | start, token :: rest =>
      let onward := valueOffsets (start + token.bytes.length) rest
      match token with
      | .prop _ _ => (start + 12) :: onward
      | _ => onward

theorem length_valueOffsets (node : Option CString) (start : Nat)
    (stream : List Token) :
    (valueOffsets start stream).length =
      (entered node (stream.filterMap Token.event?)).length := by
  induction stream generalizing node start with
  | nil => rfl
  | cons token rest ih =>
      cases token with
      | beginNode name => exact ih _ _
      | prop nameoff property => exact congrArg Nat.succ (ih _ _)
      | endNode => exact ih _ _
      | nop => exact ih _ _

/-! Blobs. -/

/-- The size of the header up to the fields that `fdt_check_header` tests. -/
def fdtV1Size : Nat := 28

/-- A blob that carries the tree: its bytes, and how they divide into header,
structure block and strings. -/
structure Serialisation (root : Node) where
  bytes : List Byte
  offDtStruct : Word
  offDtStrings : Word
  stream : List Token
  header : fdtV1Size ≤ bytes.length
  size : bytes.length < 2 ^ 32
  totalsizeField :
    Memory.beBytes (BitVec.ofNat 32 bytes.length) <+: bytes.drop 4
  structField : Memory.beBytes offDtStruct <+: bytes.drop 8
  stringsField : Memory.beBytes offDtStrings <+: bytes.drop 12
  aligned : 4 ∣ offDtStruct.toNat
  tokens : stream.filterMap Token.event? = root.events
  block : structBlock stream <+: bytes.drop offDtStruct.toNat
  names : ∀ nameoff property, .prop nameoff property ∈ stream →
    property.name.stored <+:
      bytes.drop (offDtStrings.toNat + nameoff.toNat)

namespace Serialisation

variable {root : Node} (blob : Serialisation root)

/-- The first property of that name in a node of that name, with the offset of
its value in the structure block. -/
def lookup (nodeName propName : CString) : Option (Property × Nat) :=
  ((root.located.zip (valueOffsets 0 blob.stream)).find? fun entry =>
    entry.1.1 = nodeName ∧ entry.1.2.name = propName).map fun entry =>
      (entry.1.2, entry.2)

def result (data : Word) (nodeName propName : CString) : PropResult :=
  match blob.lookup nodeName propName with
  | none => .null
  | some (property, offset) =>
      ⟨data + blob.offDtStruct + BitVec.ofNat 32 offset,
        BitVec.ofNat 32 property.value.length⟩

/-- No property is lost or added between the tree and the stream. -/
theorem length_valueOffsets_stream :
    (valueOffsets 0 blob.stream).length = root.located.length := by
  rw [length_valueOffsets none, blob.tokens, root.entered_events_eq_located,
    List.length_map]

end Serialisation

end AuxLoader.Fdt
