import AuxLoader.Fdt.Inversion

namespace AuxLoader.Fdt

open Data

/-! The nodes of a tree in document order, and which of them a lookup by name
takes its property from. -/

/-- A node without its sub-nodes. -/
structure Entry where
  name : CString
  properties : List Property
  deriving DecidableEq

def Entry.Has (entry : Entry) (propName : CString) : Prop :=
  ∃ property ∈ entry.properties, property.name = propName

instance (entry : Entry) (propName : CString) :
    Decidable (entry.Has propName) :=
  inferInstanceAs (Decidable (∃ property ∈ entry.properties, _))

mutual
def Node.entries : Node → List Entry
  | .mk name properties children => ⟨name, properties⟩ :: children.entries

def Nodes.entries : Nodes → List Entry
  | .nil => []
  | .cons head tail => head.entries ++ tail.entries
end

def Nodes.names : Nodes → List CString
  | .nil => []
  | .cons (.mk name _ _) tail => name :: tail.names

mutual
def Node.SiblingsDiffer : Node → Prop
  | .mk _ _ children => children.names.Nodup ∧ children.SiblingsDiffer

def Nodes.SiblingsDiffer : Nodes → Prop
  | .nil => True
  | .cons head tail => head.SiblingsDiffer ∧ tail.SiblingsDiffer
end

/-- The properties in document order, each with the number and the name of its
node. -/
def numbered : Nat → List Entry → List (Nat × CString × Property)
  | _, [] => []
  | number, entry :: rest =>
      entry.properties.map (fun property => (number, entry.name, property)) ++
        numbered (number + 1) rest

theorem numbered_append (start : Nat) (front back : List Entry) :
    numbered start (front ++ back) =
      numbered start front ++ numbered (start + front.length) back := by
  induction front generalizing start with
  | nil => rfl
  | cons entry rest ih =>
      have onward : start + (rest.length + 1) = start + 1 + rest.length := by
        omega
      simp only [List.cons_append, numbered, ih, List.append_assoc,
        List.length_cons, onward]

mutual
theorem Node.numbered_entries (node : Node) (start : Nat) :
    (numbered start node.entries).map Prod.snd = node.located := by
  cases node with
  | mk name properties children =>
      have inner := children.numbered_entries (start + 1)
      simp only [Node.entries, numbered, List.map_append, List.map_map, inner,
        Node.located]
      rfl

theorem Nodes.numbered_entries (nodes : Nodes) (start : Nat) :
    (numbered start nodes.entries).map Prod.snd = nodes.located := by
  cases nodes with
  | nil => rfl
  | cons head tail =>
      have first := head.numbered_entries start
      have others := tail.numbered_entries (start + head.entries.length)
      simp only [Nodes.entries, numbered_append, List.map_append, first, others,
        Nodes.located]
end

/-- The first node of that name that has a property of that name. -/
structure FirstOwner (entries : List Entry) (nodeName propName : CString)
    (number : Nat) : Prop where
  owns : ∃ entry, entries[number]? = some entry ∧ entry.name = nodeName ∧
    entry.Has propName
  first : ∀ j entry, j < number → entries[j]? = some entry →
    entry.name = nodeName → ¬ entry.Has propName

section Owner

variable {entries : List Entry} {nodeName propName : CString} {i j : Nat}

theorem FirstOwner.not_lt (one : FirstOwner entries nodeName propName i)
    (other : FirstOwner entries nodeName propName j) : ¬ i < j := by
  intro early
  obtain ⟨entry, place, name, has⟩ := one.owns
  exact other.first i entry early place name has

theorem FirstOwner.unique (one : FirstOwner entries nodeName propName i)
    (other : FirstOwner entries nodeName propName j) : i = j :=
  Nat.le_antisymm (Nat.le_of_not_lt (other.not_lt one))
    (Nat.le_of_not_lt (one.not_lt other))

theorem firstOwner_of_find? {start : Nat} {found : Nat × CString × Property}
    (hit : (numbered start entries).find? (fun item =>
      item.2.1 = nodeName ∧ item.2.2.name = propName) = some found) :
    ∃ k, found.1 = start + k ∧ FirstOwner entries nodeName propName k := by
  induction entries generalizing start with
  | nil => cases hit
  | cons entry rest ih =>
      rw [numbered, List.find?_append, List.find?_map] at hit
      rcases Option.eq_none_or_eq_some (entry.properties.find? fun property =>
          entry.name = nodeName ∧ property.name = propName) with
        none | ⟨property, here⟩
      · have onward : (numbered (start + 1) rest).find? (fun item =>
            item.2.1 = nodeName ∧ item.2.2.name = propName) = some found := by
          rw [← hit]
          simp only [Function.comp_def, none, Option.map_none, Option.none_or]
        obtain ⟨k, number, owner⟩ := ih onward
        refine ⟨k + 1, by omega, owner.owns, ?_⟩
        intro j other before place name has
        cases j with
        | zero =>
            cases place
            obtain ⟨property, member, called⟩ := has
            have fails := List.find?_eq_none.mp none property member
            simp [name, called] at fails
        | succ j => exact owner.first j other (by omega) place name has
      · have same : (start, entry.name, property) = found := by
          apply Option.some.inj
          rw [← hit]
          simp only [Function.comp_def, here, Option.map_some, Option.some_or]
        have names := List.find?_some here
        simp only [decide_eq_true_eq] at names
        refine ⟨0, by rw [← same, Nat.add_zero], ⟨entry, rfl, names.1, property,
          List.mem_of_find?_eq_some here, names.2⟩, ?_⟩
        intro j _ before
        exact absurd before (Nat.not_lt_zero j)

end Owner

/-! The values of a blob, each with the number of its node. -/

theorem Token.twelve_le_length_prop (nameoff : Word) (property : Property) :
    12 ≤ (Token.prop nameoff property).bytes.length := by
  rw [Token.length_prop]
  exact (Nat.le_add_right _ _).trans (le_roundUp _)

theorem mem_valueOffsets_cons {start offset : Nat} {token : Token}
    {rest : List Token} (member : offset ∈ valueOffsets start (token :: rest)) :
    (12 ≤ token.bytes.length ∧ offset = start + 12) ∨
      offset ∈ valueOffsets (start + token.bytes.length) rest := by
  cases token with
  | prop nameoff property =>
      rcases List.mem_cons.mp member with rfl | later
      · exact .inl ⟨Token.twelve_le_length_prop nameoff property, rfl⟩
      · exact .inr later
  | beginNode name => exact .inr member
  | endNode => exact .inr member
  | nop => exact .inr member

theorem le_of_mem_valueOffsets {start offset : Nat} {stream : List Token}
    (member : offset ∈ valueOffsets start stream) :
    start + 12 ≤ offset ∧
      offset ≤ start + (stream.flatMap Token.bytes).length := by
  induction stream generalizing start with
  | nil => cases member
  | cons token rest ih =>
      rw [List.flatMap_cons, List.length_append]
      rcases mem_valueOffsets_cons member with ⟨size, rfl⟩ | later
      · omega
      · have := ih later
        omega

theorem valueOffsets_pairwise (start : Nat) (stream : List Token) :
    (valueOffsets start stream).Pairwise (· < ·) := by
  induction stream generalizing start with
  | nil => exact .nil
  | cons token rest ih =>
      have onward := ih (start + token.bytes.length)
      cases token with
      | prop nameoff property =>
          refine .cons (fun offset later => ?_) onward
          have far := (le_of_mem_valueOffsets later).1
          have size := Token.twelve_le_length_prop nameoff property
          omega
      | beginNode name => exact onward
      | endNode => exact onward
      | nop => exact onward

namespace Serialisation

variable {root : Node} (blob : Serialisation root)

def values : List ((Nat × CString × Property) × Nat) :=
  (numbered 0 root.entries).zip (valueOffsets 0 blob.stream)

def resultAt (data : Word) (value : (Nat × CString × Property) × Nat) :
    PropResult :=
  ⟨data + blob.offDtStruct + BitVec.ofNat 32 value.2,
    BitVec.ofNat 32 value.1.2.2.value.length⟩

/-- The result is the value of a property of that name, of the node with that
number. -/
def ValueOf (data : Word) (number : Nat) (propName : CString)
    (r : PropResult) : Prop :=
  ∃ value ∈ blob.values, value.1.1 = number ∧
    value.1.2.2.name = propName ∧ r = blob.resultAt data value

theorem map_fst_values :
    blob.values.map Prod.fst = numbered 0 root.entries := by
  apply List.map_fst_zip
  rw [blob.length_valueOffsets_stream, ← root.numbered_entries 0,
    List.length_map]

theorem lookup_eq (nodeName propName : CString) :
    blob.lookup nodeName propName =
      (blob.values.find? fun value =>
        value.1.2.1 = nodeName ∧ value.1.2.2.name = propName).map
          fun value => (value.1.2.2, value.2) := by
  rw [lookup, ← root.numbered_entries 0, List.zip_map_left, List.find?_map,
    Option.map_map]
  rfl

theorem values_inj {first second : (Nat × CString × Property) × Nat}
    (one : first ∈ blob.values) (other : second ∈ blob.values)
    (same : first.2 = second.2) : first = second := by
  obtain ⟨i, small, rfl⟩ := List.getElem_of_mem one
  obtain ⟨j, bound, rfl⟩ := List.getElem_of_mem other
  have distinct : (valueOffsets 0 blob.stream).Nodup :=
    (valueOffsets_pairwise 0 blob.stream).imp Nat.ne_of_lt
  simp only [values, List.getElem_zip] at same ⊢
  have index := (distinct.getElem_inj_iff).mp same
  subst index
  rfl

theorem offset_lt {value : (Nat × CString × Property) × Nat}
    (member : value ∈ blob.values) : value.2 < 2 ^ 32 := by
  have near := (le_of_mem_valueOffsets (List.of_mem_zip member).2).2
  have room := length_of_prefix_drop blob.block
    (by simp [structBlock, Memory.beBytes])
  have size := blob.size
  rw [structBlock, List.length_append] at room
  omega

/-- A lookup that succeeds brings a value of the first owner. -/
theorem exists_of_result {data : Word} {nodeName propName : CString}
    (found : (blob.result data nodeName propName).ptr ≠ 0) :
    ∃ value ∈ blob.values, value.1.2.2.name = propName ∧
      FirstOwner root.entries nodeName propName value.1.1 ∧
      blob.result data nodeName propName = blob.resultAt data value := by
  have lookup := blob.lookup_eq nodeName propName
  rcases Option.eq_none_or_eq_some (blob.values.find? fun value =>
      value.1.2.1 = nodeName ∧ value.1.2.2.name = propName) with
    none | ⟨value, hit⟩
  · rw [none, Option.map_none] at lookup
    rw [result, lookup] at found
    exact absurd rfl found
  · rw [hit, Option.map_some] at lookup
    have names := List.find?_some hit
    simp only [decide_eq_true_eq] at names
    have numberedHit : (numbered 0 root.entries).find? (fun item =>
        item.2.1 = nodeName ∧ item.2.2.name = propName) = some value.1 := by
      rw [← blob.map_fst_values, List.find?_map]
      exact congrArg (Option.map Prod.fst) hit
    obtain ⟨k, same, owner⟩ := firstOwner_of_find? numberedHit
    refine ⟨value, List.mem_of_find?_eq_some hit, names.2, ?_, ?_⟩
    · rwa [same, Nat.zero_add]
    · rw [result, lookup]
      rfl

theorem valueOf_result_iff {data : Word} {nodeName propName : CString}
    {number : Nat} (found : (blob.result data nodeName propName).ptr ≠ 0) :
    blob.ValueOf data number propName (blob.result data nodeName propName) ↔
      FirstOwner root.entries nodeName propName number := by
  obtain ⟨value, member, name, owner, result⟩ := blob.exists_of_result found
  constructor
  · rintro ⟨other, otherMember, rfl, _, same⟩
    have offsets : value.2 = other.2 := by
      have ptr := congrArg PropResult.ptr (result.symm.trans same)
      have words := (BitVec.add_right_inj _).mp ptr
      have small := blob.offset_lt member
      have bound := blob.offset_lt otherMember
      have := congrArg BitVec.toNat words
      rwa [BitVec.toNat_ofNat, BitVec.toNat_ofNat, Nat.mod_eq_of_lt small,
        Nat.mod_eq_of_lt bound] at this
    rwa [← blob.values_inj member otherMember offsets]
  · intro first
    exact ⟨value, member, owner.unique first, name, result⟩

end Serialisation

end AuxLoader.Fdt
