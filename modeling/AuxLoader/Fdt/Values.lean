import AuxLoader.Fdt.Document

namespace AuxLoader.Fdt

open Data

/-! Where in memory a lookup finds what a tree has. -/

/-- The value of the first property of that name in a node of that name. -/
def Node.value? (root : Node) (nodeName propName : CString) :
    Option (List Byte) :=
  (root.located.find? fun entry =>
    entry.1 = nodeName ∧ entry.2.name = propName).map fun entry =>
      entry.2.value

/-- A value has room in the token that it is in. -/
theorem value_inside {stream : List Token} {start : Nat}
    (node : Option CString) {entry : (Option CString × Property) × Nat}
    (member : entry ∈ (entered node (stream.filterMap Token.event?)).zip
      (valueOffsets start stream)) :
    start + 12 ≤ entry.2 ∧ entry.2 + entry.1.2.value.length ≤
      start + (stream.flatMap Token.bytes).length := by
  induction stream generalizing start node with
  | nil => cases member
  | cons token rest ih =>
      have later (node : Option CString)
          (member : entry ∈ (entered node (rest.filterMap Token.event?)).zip
            (valueOffsets (start + token.bytes.length) rest)) :
          start + 12 ≤ entry.2 ∧ entry.2 + entry.1.2.value.length ≤
            start + ((token :: rest).flatMap Token.bytes).length := by
        obtain ⟨above, below⟩ := ih node member
        rw [List.flatMap_cons, List.length_append]
        omega
      cases token with
      | beginNode name => exact later (some name) member
      | endNode => exact later none member
      | nop => exact later node member
      | prop nameoff property =>
          simp only [List.filterMap_cons, Token.event?, entered, valueOffsets,
            List.zip_cons_cons, List.mem_cons] at member
          rcases member with rfl | member
          · have room := le_roundUp (12 + property.value.length)
            rw [List.flatMap_cons, List.length_append, Token.length_prop]
            exact ⟨Nat.le_refl _, by dsimp only; omega⟩
          · exact later node member

/-- The lookup has come to the value, which lies in the blob. -/
structure Located (mem : Memory) (data : Word) (size : Nat)
    (value : List Byte) (r : PropResult) : Prop where
  len : r.len.toNat = value.length
  holds : mem.Holds r.ptr value
  above : data.toNat + 12 ≤ r.ptr.toNat
  below : r.ptr.toNat + value.length ≤ data.toNat + size

namespace Serialisation

variable {root : Node} (blob : Serialisation root) {mem : Memory} {data : Word}
  {nodeName propName : CString} {value : List Byte}

theorem zip_of_value? (found : root.value? nodeName propName = some value) :
    ∃ entry, (root.located.zip (valueOffsets 0 blob.stream)).find?
        (fun entry => entry.1.1 = nodeName ∧ entry.1.2.name = propName) =
          some entry ∧ entry.1.2.value = value := by
  have all : (root.located.zip (valueOffsets 0 blob.stream)).map Prod.fst =
      root.located :=
    List.map_fst_zip (Nat.le_of_eq blob.length_valueOffsets_stream.symm)
  rw [Node.value?, ← all, List.find?_map, Option.map_map] at found
  exact Option.map_eq_some_iff.mp found

theorem located_of_value? (held : mem.Holds data blob.bytes)
    (fits : data.toNat + blob.bytes.length < 2 ^ 32)
    (found : root.value? nodeName propName = some value) :
    (fdtGetProp mem data nodeName propName).val =
        some (blob.result data nodeName propName) ∧
      Located mem data blob.bytes.length value
        (blob.result data nodeName propName) := by
  refine ⟨(blob.walk held fits nodeName propName).1, ?_⟩
  obtain ⟨entry, hit, rfl⟩ := blob.zip_of_value? found
  have lookup : blob.lookup nodeName propName = some (entry.1.2, entry.2) := by
    rw [Serialisation.lookup, hit, Option.map_some]
  obtain ⟨holds, small⟩ := blob.lookup_held held fits lookup
  have member := @List.mem_map_of_mem _ _ _ _
    (Prod.map (Prod.map some id) id) (List.mem_of_find?_eq_some hit)
  rw [← List.zip_map_left, ← root.entered_events_eq_located,
    ← blob.tokens] at member
  obtain ⟨above, below⟩ := value_inside none member
  have block := length_of_prefix_drop blob.block
    (by simp [structBlock, Memory.beBytes])
  rw [structBlock, List.length_append, Memory.length_beBytes] at block
  dsimp only [Prod.map_fst, Prod.map_snd, id] at above below
  have place : (data + blob.offDtStruct + BitVec.ofNat 32 entry.2).toNat =
      data.toNat + blob.offDtStruct.toNat + entry.2 := by
    bv_omega
  rw [Serialisation.result, lookup]
  exact {
    len := by
      dsimp only
      rw [BitVec.toNat_ofNat, Nat.mod_eq_of_lt small]
    holds := holds
    above := by dsimp only; omega
    below := by dsimp only; omega }

/-- What the header check asks for beyond the size. -/
structure Supported : Prop where
  magic : Memory.beBytes fdtMagic <+: blob.bytes.drop 0
  version : ∃ version, Memory.beBytes version <+: blob.bytes.drop 20 ∧
    fdtFirstSupportedVersion ≤ version
  lastCompVersion : ∃ version, Memory.beBytes version <+: blob.bytes.drop 24 ∧
    version ≤ fdtLastSupportedVersion
  offDtStruct : blob.offDtStruct ≠ 0
  offDtStrings : blob.offDtStrings ≠ 0 ∧
    blob.offDtStrings.toNat < blob.bytes.length

variable {blob}

theorem Supported.magic_eq (supported : blob.Supported)
    (held : mem.Holds data blob.bytes) : mem.beWord data = fdtMagic := by
  have first := blob.beWord_header held (by decide) supported.magic
  rwa [show data + BitVec.ofNat 32 0 = data from BitVec.add_zero data] at first

theorem Supported.fdtCheckHeader (supported : blob.Supported)
    (held : mem.Holds data blob.bytes) {dataSize : Word}
    (fits : blob.bytes.length ≤ dataSize.toNat) :
    fdtCheckHeader mem data dataSize = 0 := by
  obtain ⟨version, versionField, young⟩ := supported.version
  obtain ⟨last, lastField, old⟩ := supported.lastCompVersion
  have block := length_of_prefix_drop blob.block
    (by simp [structBlock, Memory.beBytes])
  have long := Upcoming.four_le_length_structBlock blob.stream
  have magic := supported.magic_eq held
  have total := blob.beWord_header held (by decide) blob.totalsizeField
  have structAt := blob.beWord_header held (by decide) blob.structField
  have stringsAt := blob.beWord_header held (by decide) blob.stringsField
  have versionAt := blob.beWord_header held (by decide) versionField
  have lastAt := blob.beWord_header held (by decide) lastField
  have size : (BitVec.ofNat 32 blob.bytes.length).toNat =
      blob.bytes.length := by
    rw [BitVec.toNat_ofNat, Nat.mod_eq_of_lt blob.size]
  simp only [Fdt.fdtCheckHeader, ntohl_word]
  change (if mem.beWord data ≠ fdtMagic then (-1 : Int)
    else if dataSize < mem.beWord (data + BitVec.ofNat 32 4) then -2
    else if mem.beWord (data + BitVec.ofNat 32 20) < fdtFirstSupportedVersion
      then -3
    else if mem.beWord (data + BitVec.ofNat 32 24) > fdtLastSupportedVersion
      then -4
    else if mem.beWord (data + BitVec.ofNat 32 8) = 0 ∨
        mem.beWord (data + BitVec.ofNat 32 8) ≥
          mem.beWord (data + BitVec.ofNat 32 4) then -5
    else if mem.beWord (data + BitVec.ofNat 32 12) = 0 ∨
        mem.beWord (data + BitVec.ofNat 32 12) ≥
          mem.beWord (data + BitVec.ofNat 32 4) then -6
    else 0) = 0
  rw [magic, total, structAt, stringsAt, versionAt, lastAt,
    if_neg (not_not_intro rfl), if_neg, if_neg, if_neg, if_neg, if_neg]
  · rintro (zero | beyond)
    · exact supported.offDtStrings.1 zero
    · have inside := supported.offDtStrings.2
      rw [ge_iff_le, BitVec.le_def, size] at beyond
      omega
  · rintro (zero | beyond)
    · exact supported.offDtStruct zero
    · rw [ge_iff_le, BitVec.le_def, size] at beyond
      omega
  · exact BitVec.not_lt.mpr old
  · exact BitVec.not_lt.mpr young
  · rw [BitVec.lt_def, size]
    omega

end Serialisation

end AuxLoader.Fdt
