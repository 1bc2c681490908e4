import AuxLoader.Fdt.Bounds
import AuxLoader.Fdt.Tree

namespace AuxLoader.Fdt

open Data

/-! The walk over a serialised tree. -/

/-- Where the walk of a blob stands: the bytes still to come, all inside the
`size` bytes at `data`. -/
structure Upcoming (mem : Memory) (data : Word) (size : Nat) (blob : Blob)
    (stream : List Token) (start : Nat) : Prop where
  fits : data.toNat + size < 2 ^ 32
  tail : blob.t = data + BitVec.ofNat 32 size
  held : mem.Holds (blob.p + BitVec.ofNat 32 start) (structBlock stream)
  near : (blob.p - data).toNat + start + (structBlock stream).length ≤ size
  aligned : 4 ∣ start
  name : ∀ nameoff property, .prop nameoff property ∈ stream →
    property.name.At mem (blob.n + nameoff)
  nameNear : ∀ nameoff property, .prop nameoff property ∈ stream →
    (blob.n + nameoff - data).toNat + property.name.bytes.length < size

section Placement

variable {data : Word} {size : Nat}

theorem index_add_ofNat {base : Word} {i : Nat}
    (near : (base - data).toNat + i < 2 ^ 32) :
    (base + BitVec.ofNat 32 i - data).toNat = (base - data).toNat + i := by
  have shift : base + BitVec.ofNat 32 i - data =
      base - data + BitVec.ofNat 32 i := by bv_omega
  rw [shift, Word.toNat_add_ofNat near]

theorem lt_tail_of_index (fits : data.toNat + size < 2 ^ 32) {address : Word}
    (inside : (address - data).toNat < size) :
    address < data + BitVec.ofNat 32 size := by
  have top : (data + BitVec.ofNat 32 size).toNat = data.toNat + size :=
    Word.toNat_add_ofNat fits
  have split : address = data + BitVec.ofNat 32 (address - data).toNat := by
    rw [BitVec.ofNat_toNat, BitVec.setWidth_eq]
    bv_omega
  have place : address.toNat = data.toNat + (address - data).toNat := by
    have := @Word.toNat_add_ofNat data (address - data).toNat (by omega)
    rwa [← split] at this
  rw [BitVec.lt_def, top, place]
  omega

end Placement

namespace Upcoming

variable {mem : Memory} {data : Word} {size : Nat} {blob : Blob}
  {stream rest : List Token} {token : Token} {start : Nat}

theorem structBlock_cons (token : Token) (rest : List Token) :
    structBlock (token :: rest) = token.bytes ++ structBlock rest := by
  simp [structBlock]

theorem four_le_length_structBlock (stream : List Token) :
    4 ≤ (structBlock stream).length := by
  simp [structBlock]

theorem tokenHeld (upcoming : Upcoming mem data size blob (token :: rest) start) :
    mem.Holds (blob.p + BitVec.ofNat 32 start) token.bytes := by
  have held := upcoming.held
  rw [structBlock_cons, Memory.holds_append] at held
  exact held.1

theorem tokenNear (upcoming : Upcoming mem data size blob (token :: rest) start) :
    (blob.p - data).toNat + start + token.bytes.length + 4 ≤ size := by
  have near := upcoming.near
  have := four_le_length_structBlock rest
  rw [structBlock_cons, List.length_append] at near
  omega

theorem next (upcoming : Upcoming mem data size blob (token :: rest) start) :
    Upcoming mem data size blob rest (start + token.bytes.length) := by
  have held := upcoming.held
  have near := upcoming.near
  rw [structBlock_cons, Memory.holds_append,
    Word.add_ofNat_add_ofNat] at held
  rw [structBlock_cons, List.length_append] at near
  exact {
    fits := upcoming.fits
    tail := upcoming.tail
    held := held.2
    near := by omega
    aligned := Nat.dvd_add upcoming.aligned token.four_dvd_length_bytes
    name := fun nameoff property member =>
      upcoming.name nameoff property (List.mem_cons_of_mem _ member)
    nameNear := fun nameoff property member =>
      upcoming.nameNear nameoff property (List.mem_cons_of_mem _ member) }

theorem index (upcoming : Upcoming mem data size blob stream start) {i : Nat}
    (near : i < (structBlock stream).length) :
    (blob.p + BitVec.ofNat 32 start + BitVec.ofNat 32 i - data).toNat =
      (blob.p - data).toNat + start + i := by
  have := upcoming.near
  have := upcoming.fits
  rw [Word.add_ofNat_add_ofNat, index_add_ofNat (by omega)]
  omega

theorem below (upcoming : Upcoming mem data size blob stream start) {i : Nat}
    (near : i < (structBlock stream).length) :
    blob.p + BitVec.ofNat 32 start + BitVec.ofNat 32 i < blob.t := by
  have := upcoming.near
  rw [upcoming.tail]
  apply lt_tail_of_index upcoming.fits
  rw [upcoming.index near]
  omega

theorem tagNear (upcoming : Upcoming mem data size blob stream start) :
    (blob.p + BitVec.ofNat 32 start - data).toNat + 4 ≤ size := by
  have near := upcoming.near
  have long := four_le_length_structBlock stream
  have here := @index _ _ _ _ _ _ upcoming 0 (by omega)
  simp only [BitVec.add_zero] at here
  rw [here]
  omega

theorem inRange
    (upcoming : Upcoming mem data size blob (token :: rest) start) :
    blob.TagInRange (BitVec.ofNat 32 start) := by
  have long := four_le_length_structBlock rest
  have token_long : 4 ≤ token.bytes.length := by
    cases token <;> simp [Token.bytes]
  refine @below _ _ _ _ _ _ upcoming 4 ?_
  rw [structBlock_cons, List.length_append]
  omega

theorem tagAt (upcoming : Upcoming mem data size blob (token :: rest) start)
    {tag : Word} {payload : List Byte}
    (form : token.bytes = Memory.beBytes tag ++ payload) :
    blob.tagAt mem (BitVec.ofNat 32 start) = tag := by
  have held := upcoming.tokenHeld
  rw [form, Memory.holds_append] at held
  exact Memory.holds_beBytes.mp held.1

end Upcoming

theorem fdtTagalign_next {start length : Nat} (aligned : 4 ∣ start)
    (fits : start + roundUp length < 2 ^ 32) :
    fdtTagalign (BitVec.ofNat 32 start + BitVec.ofNat 32 length) =
      BitVec.ofNat 32 (start + roundUp length) := by
  have small : (BitVec.ofNat 32 start).toNat = start := by
    simp only [BitVec.toNat_ofNat]
    omega
  have split : roundUp (start + length) = start + roundUp length := by
    unfold roundUp
    omega
  apply BitVec.eq_of_toNat_eq
  rw [toNat_fdtTagalign_add (by rw [small, split]; exact fits), small, split,
    BitVec.toNat_ofNat, Nat.mod_eq_of_lt fits]

theorem Token.length_beginNode (name : CString) :
    (Token.beginNode name).bytes.length =
      roundUp (4 + (name.bytes.length + 1)) := by
  simp only [Token.bytes, List.length_append, Memory.length_beBytes,
    length_padded, CString.length_stored, roundUp]
  omega

theorem Token.length_prop (nameoff : Word) (property : Property) :
    (Token.prop nameoff property).bytes.length =
      roundUp (12 + property.value.length) := by
  simp only [Token.bytes, List.length_append, Memory.length_beBytes,
    length_padded, roundUp]
  omega

theorem firstNul_of_at {mem : Memory} {address : Word} {name : CString}
    (stands : name.At mem address) :
    FirstNul mem address name.bytes.length :=
  ⟨fun _ bound => stands.ne_zero bound, stands.nul⟩

/-! One token of the stream: where the walk goes on, and that it stays inside. -/

namespace Upcoming

variable {mem : Memory} {data : Word} {size : Nat} {blob : Blob}
  {rest : List Token} {start : Nat} (nodeName propName : CString)
  (found : Bool)

theorem nextOffset {token : Token}
    (upcoming : Upcoming mem data size blob (token :: rest) start)
    {length : Nat} (long : token.bytes.length = roundUp length) :
    fdtTagalign (BitVec.ofNat 32 start + BitVec.ofNat 32 length) =
      BitVec.ofNat 32 (start + token.bytes.length) := by
  have near := upcoming.tokenNear
  have fits := upcoming.fits
  rw [long] at near ⊢
  exact fdtTagalign_next upcoming.aligned (by omega)

theorem beginNode_name {name : CString}
    (upcoming : Upcoming mem data size blob (.beginNode name :: rest) start) :
    name.At mem (blob.p + BitVec.ofNat 32 start + fdtTagsize) := by
  have held := upcoming.tokenHeld
  simp only [Token.bytes, padded, Memory.holds_append,
    Memory.length_beBytes] at held
  exact held.2.1

theorem beginNode_step {name : CString}
    (upcoming : Upcoming mem data size blob (.beginNode name :: rest) start) :
    (fdtGetPropBody mem blob nodeName propName).Step
      ⟨BitVec.ofNat 32 start, found⟩
      ⟨BitVec.ofNat 32 (start + (Token.beginNode name).bytes.length),
        decide (some name = some nodeName)⟩ := by
  have stands := upcoming.beginNode_name
  have tag := upcoming.tagAt rfl
  have advance := @Advance.beginNode mem blob nodeName propName
    ⟨BitVec.ofNat 32 start, found⟩ _ upcoming.inRange tag
    (firstNul_of_at stands)
  have flag : (fdtStreq mem nodeName.bytes
      (blob.p + BitVec.ofNat 32 start + fdtTagsize)).val =
        decide (some name = some nodeName) := by
    rw [Bool.eq_iff_iff, fdtStreq_val_iff, decide_eq_true_iff,
      Option.some.injEq]
    constructor
    · exact fun named => stands.unique named
    · rintro rfl
      exact stands
  have offset := upcoming.nextOffset (Token.length_beginNode name)
  rw [afterName_eq, offset, flag] at advance
  exact advance.step

theorem beginNode_fits {name : CString}
    (upcoming : Upcoming mem data size blob (.beginNode name :: rest) start) :
    TokenFits mem blob data size propName ⟨BitVec.ofNat 32 start, found⟩ := by
  have stands := upcoming.beginNode_name
  have tag := upcoming.tagAt rfl
  have long : 4 + (name.bytes.length + 1) ≤
      (Token.beginNode name).bytes.length := by
    rw [Token.length_beginNode]
    exact le_roundUp _
  have near := upcoming.tokenNear
  have place := @index _ _ _ _ _ _ upcoming 4 (by
    rw [structBlock_cons, List.length_append]
    omega)
  have noProp (isProp : blob.tagAt mem (BitVec.ofNat 32 start) = fdtProp) :
      False := absurd (tag.symm.trans isProp) (by decide)
  exact {
    tag := upcoming.tagNear
    name := fun _ _ => ⟨name.bytes.length, by
      change (blob.p + BitVec.ofNat 32 start + BitVec.ofNat 32 4 - data).toNat +
        _ < _
      rw [place]
      omega, stands.nul⟩
    len := fun _ isProp => (noProp isProp).elim
    nameoff := fun _ isProp => (noProp isProp).elim
    propName := fun _ isProp => (noProp isProp).elim }

theorem bare_fits {token : Token}
    (upcoming : Upcoming mem data size blob (token :: rest) start)
    {tag : Word} (form : token.bytes = Memory.beBytes tag)
    (noBegin : tag ≠ fdtBeginNode) (noProp : tag ≠ fdtProp) :
    TokenFits mem blob data size propName ⟨BitVec.ofNat 32 start, found⟩ := by
  have stands := upcoming.tagAt (form.trans (List.append_nil _).symm)
  exact {
    tag := upcoming.tagNear
    name := fun _ isBegin => absurd (stands.symm.trans isBegin) noBegin
    len := fun _ isProp => absurd (stands.symm.trans isProp) noProp
    nameoff := fun _ isProp => absurd (stands.symm.trans isProp) noProp
    propName := fun _ isProp => absurd (stands.symm.trans isProp) noProp }

theorem endNode_step
    (upcoming : Upcoming mem data size blob (.endNode :: rest) start) :
    (fdtGetPropBody mem blob nodeName propName).Step
      ⟨BitVec.ofNat 32 start, found⟩
      ⟨BitVec.ofNat 32 (start + Token.endNode.bytes.length), false⟩ := by
  have advance := @Advance.endNode mem blob nodeName propName
    ⟨BitVec.ofNat 32 start, found⟩ upcoming.inRange
    (upcoming.tagAt (List.append_nil _).symm)
  have offset := @nextOffset _ _ _ _ _ _ _ upcoming 4 rfl
  rw [show fdtTagsize = BitVec.ofNat 32 4 from rfl, offset] at advance
  exact advance.step

theorem nop_step
    (upcoming : Upcoming mem data size blob (.nop :: rest) start) :
    (fdtGetPropBody mem blob nodeName propName).Step
      ⟨BitVec.ofNat 32 start, found⟩
      ⟨BitVec.ofNat 32 (start + Token.nop.bytes.length), found⟩ := by
  have advance := @Advance.nop mem blob nodeName propName
    ⟨BitVec.ofNat 32 start, found⟩ upcoming.inRange
    (upcoming.tagAt (List.append_nil _).symm)
  have offset := @nextOffset _ _ _ _ _ _ _ upcoming 4 rfl
  rw [show fdtTagsize = BitVec.ofNat 32 4 from rfl, offset] at advance
  exact advance.step

section PropToken

variable {nameoff : Word} {property : Property}

theorem prop_fields
    (upcoming : Upcoming mem data size blob
      (.prop nameoff property :: rest) start) :
    blob.lenAt mem (BitVec.ofNat 32 start) =
        BitVec.ofNat 32 property.value.length ∧
      blob.nameAt mem (BitVec.ofNat 32 start) = blob.n + nameoff ∧
      mem.Holds (blob.valueAt (BitVec.ofNat 32 start)) property.value := by
  have held := upcoming.tokenHeld
  simp only [Token.bytes, padded, Memory.holds_append, Memory.length_beBytes,
    Word.add_ofNat_add_ofNat, Memory.holds_beBytes] at held
  obtain ⟨_, len, nameWord, value, _⟩ := held
  have shift (i : Nat) : blob.p + BitVec.ofNat 32 (start + i) =
      blob.p + BitVec.ofNat 32 start + BitVec.ofNat 32 i :=
    (Word.add_ofNat_add_ofNat _ _ _).symm
  simp only [Nat.add_assoc, Nat.reduceAdd, shift] at len nameWord value
  exact ⟨len, congrArg (blob.n + ·) nameWord, value⟩

theorem prop_inRange
    (upcoming : Upcoming mem data size blob
      (.prop nameoff property :: rest) start) :
    blob.PropInRange mem (BitVec.ofNat 32 start) := by
  have long : 12 + property.value.length ≤
      (Token.prop nameoff property).bytes.length := by
    rw [Token.length_prop]
    exact le_roundUp _
  have last := four_le_length_structBlock rest
  have nameNear := upcoming.nameNear nameoff property (by simp)
  constructor
  · refine @below _ _ _ _ _ _ upcoming 12 ?_
    rw [structBlock_cons, List.length_append]
    omega
  · rw [upcoming.prop_fields.2.1, upcoming.tail]
    apply lt_tail_of_index upcoming.fits
    omega

theorem prop_fits
    (upcoming : Upcoming mem data size blob
      (.prop nameoff property :: rest) start) :
    TokenFits mem blob data size propName ⟨BitVec.ofNat 32 start, found⟩ := by
  have tag := upcoming.tagAt rfl
  have long : 12 + property.value.length ≤
      (Token.prop nameoff property).bytes.length := by
    rw [Token.length_prop]
    exact le_roundUp _
  have near := upcoming.tokenNear
  have room : (Token.prop nameoff property).bytes.length <
      (structBlock (.prop nameoff property :: rest)).length := by
    have := four_le_length_structBlock rest
    rw [structBlock_cons, List.length_append]
    omega
  have lenPlace := @index _ _ _ _ _ _ upcoming 4 (by omega)
  have namePlace := @index _ _ _ _ _ _ upcoming 8 (by omega)
  have named := upcoming.name nameoff property (by simp)
  have nameNear := upcoming.nameNear nameoff property (by simp)
  exact {
    tag := upcoming.tagNear
    name := fun _ isBegin => absurd (tag.symm.trans isBegin) (by decide)
    len := fun _ _ _ => by
      change (blob.p + BitVec.ofNat 32 start + BitVec.ofNat 32 4 - data).toNat +
        4 ≤ size
      omega
    nameoff := fun _ _ _ _ => by
      change (blob.p + BitVec.ofNat 32 start + BitVec.ofNat 32 8 - data).toNat +
        4 ≤ size
      omega
    propName := fun _ _ _ _ => by
      rw [upcoming.prop_fields.2.1]
      refine ⟨property.name.bytes.length, nameNear, ?_⟩
      rw [named.nul]
      exact propName.getElem?_ne_zero _ }

theorem prop_named_iff
    (upcoming : Upcoming mem data size blob
      (.prop nameoff property :: rest) start) :
    propName.At mem (blob.nameAt mem (BitVec.ofNat 32 start)) ↔
      property.name = propName := by
  have stands := upcoming.name nameoff property (by simp)
  rw [upcoming.prop_fields.2.1]
  constructor
  · exact fun named => stands.unique named
  · rintro rfl
    exact stands

theorem prop_value_small
    (upcoming : Upcoming mem data size blob
      (.prop nameoff property :: rest) start) :
    property.value.length < 2 ^ 32 := by
  have near := upcoming.tokenNear
  have fits := upcoming.fits
  have long := le_roundUp (12 + property.value.length)
  rw [Token.length_prop] at near
  omega

theorem prop_step
    (upcoming : Upcoming mem data size blob
      (.prop nameoff property :: rest) start)
    (passed : ¬ (found = true ∧ property.name = propName)) :
    (fdtGetPropBody mem blob nodeName propName).Step
      ⟨BitVec.ofNat 32 start, found⟩
      ⟨BitVec.ofNat 32 (start + (Token.prop nameoff property).bytes.length),
        found⟩ := by
  have advance := @Advance.prop mem blob nodeName propName
    ⟨BitVec.ofNat 32 start, found⟩ upcoming.inRange (upcoming.tagAt rfl)
    fun isFound => ⟨upcoming.prop_inRange, fun named =>
      passed ⟨isFound, (upcoming.prop_named_iff propName).mp named⟩⟩
  have offset := upcoming.nextOffset (Token.length_prop nameoff property)
  rw [afterProp_eq, upcoming.prop_fields.1, BitVec.toNat_ofNat,
    Nat.mod_eq_of_lt upcoming.prop_value_small, offset] at advance
  exact advance.step

theorem prop_exit
    (upcoming : Upcoming mem data size blob
      (.prop nameoff property :: rest) start)
    (isFound : found = true) (named : property.name = propName) :
    (fdtGetPropBody mem blob nodeName propName
        ⟨BitVec.ofNat 32 start, found⟩).val =
      .inr (some ⟨blob.p + BitVec.ofNat 32 (start + 12),
        BitVec.ofNat 32 property.value.length⟩) := by
  have leave := @Leave.found mem blob propName ⟨BitVec.ofNat 32 start, found⟩
    upcoming.inRange (upcoming.tagAt rfl) isFound upcoming.prop_inRange
    ((upcoming.prop_named_iff propName).mpr named)
  have exit := @Leave.exit mem blob nodeName propName _ _ leave
  rw [upcoming.prop_fields.1] at exit
  rw [exit, ← Word.add_ofNat_add_ofNat]
  rfl

end PropToken

theorem end_tag (upcoming : Upcoming mem data size blob [] start) :
    blob.tagAt mem (BitVec.ofNat 32 start) = fdtEnd := by
  have held := upcoming.held
  rw [show structBlock [] = Memory.beBytes fdtEnd from rfl] at held
  exact Memory.holds_beBytes.mp held

theorem end_exit (upcoming : Upcoming mem data size blob [] start) :
    (fdtGetPropBody mem blob nodeName propName
      ⟨BitVec.ofNat 32 start, found⟩).val = .inr (some .null) := by
  have tag := upcoming.end_tag
  have leave : Leave mem blob propName ⟨BitVec.ofNat 32 start, found⟩
      (some .null) := by
    by_cases inRange : blob.TagInRange (BitVec.ofNat 32 start)
    · exact .endTag inRange tag
    · exact .outOfRange inRange
  exact leave.exit

theorem end_fits (upcoming : Upcoming mem data size blob [] start) :
    TokenFits mem blob data size propName ⟨BitVec.ofNat 32 start, found⟩ := by
  have tag := upcoming.end_tag
  exact {
    tag := upcoming.tagNear
    name := fun _ isBegin => absurd (tag.symm.trans isBegin) (by decide)
    len := fun _ isProp => absurd (tag.symm.trans isProp) (by decide)
    nameoff := fun _ isProp => absurd (tag.symm.trans isProp) (by decide)
    propName := fun _ isProp => absurd (tag.symm.trans isProp) (by decide) }

end Upcoming

/-! The whole stream. -/

section Stream

variable {mem : Memory} {data : Word} {size : Nat} {blob : Blob}
  {nodeName propName : CString}

def wanted (nodeName propName : CString)
    (entry : (Option CString × Property) × Nat) : Bool :=
  entry.1.1 = some nodeName ∧ entry.1.2.name = propName

def Blob.resultOf (blob : Blob) :
    Option ((Option CString × Property) × Nat) → PropResult
  | none => .null
  | some ((_, property), offset) =>
      ⟨blob.p + BitVec.ofNat 32 offset, BitVec.ofNat 32 property.value.length⟩

/-- The walk comes to the first wanted property of the rest of the stream, and
every token on its way is inside. -/
theorem Upcoming.walk {stream : List Token} {start : Nat}
    (node : Option CString)
    (upcoming : Upcoming mem data size blob stream start) :
    (fdtGetPropBody mem blob nodeName propName).Exits
        ⟨BitVec.ofNat 32 start, decide (node = some nodeName)⟩
        (some (blob.resultOf
          (((entered node (stream.filterMap Token.event?)).zip
            (valueOffsets start stream)).find? (wanted nodeName propName)))) ∧
      ∀ u, (fdtGetPropBody mem blob nodeName propName).Reaches
          ⟨BitVec.ofNat 32 start, decide (node = some nodeName)⟩ u →
        TokenFits mem blob data size propName u := by
  induction stream generalizing start node with
  | nil =>
      have exit := upcoming.end_exit nodeName propName
        (decide (node = some nodeName))
      have fits := upcoming.end_fits propName (decide (node = some nodeName))
      exact ⟨Loop.exits_of_exit exit, Loop.forall_reaches_of_exit exit fits⟩
  | cons token rest ih =>
      cases token with
      | beginNode name =>
          have onward := ih (some name) upcoming.next
          have step := upcoming.beginNode_step nodeName propName
            (decide (node = some nodeName))
          have fits := upcoming.beginNode_fits propName
            (decide (node = some nodeName))
          exact ⟨Loop.exits_of_step step onward.1,
            Loop.forall_reaches_of_step step fits onward.2⟩
      | endNode =>
          have onward := ih none upcoming.next
          have step := upcoming.endNode_step nodeName propName
            (decide (node = some nodeName))
          have fits := upcoming.bare_fits propName
            (decide (node = some nodeName)) rfl (by decide) (by decide)
          exact ⟨Loop.exits_of_step step onward.1,
            Loop.forall_reaches_of_step step fits onward.2⟩
      | nop =>
          have onward := ih node upcoming.next
          have step := upcoming.nop_step nodeName propName
            (decide (node = some nodeName))
          have fits := upcoming.bare_fits propName
            (decide (node = some nodeName)) rfl (by decide) (by decide)
          exact ⟨Loop.exits_of_step step onward.1,
            Loop.forall_reaches_of_step step fits onward.2⟩
      | prop nameoff property =>
          have fits := upcoming.prop_fits propName
            (decide (node = some nodeName))
          simp only [List.filterMap_cons, Token.event?, entered, valueOffsets,
            List.zip_cons_cons, List.find?_cons]
          cases isWanted :
              wanted nodeName propName ((node, property), start + 12) with
          | true =>
              simp only [wanted, decide_eq_true_iff] at isWanted
              have exit := upcoming.prop_exit nodeName propName
                (decide (node = some nodeName)) (decide_eq_true isWanted.1)
                isWanted.2
              exact ⟨Loop.exits_of_exit exit,
                Loop.forall_reaches_of_exit exit fits⟩
          | false =>
              simp only [wanted, decide_eq_false_iff_not] at isWanted
              have onward := ih node upcoming.next
              have step := upcoming.prop_step nodeName propName
                (decide (node = some nodeName))
                (by rw [decide_eq_true_iff]; exact isWanted)
              exact ⟨Loop.exits_of_step step onward.1,
                Loop.forall_reaches_of_step step fits onward.2⟩

theorem Upcoming.value_held {stream : List Token} {start : Nat}
    (node : Option CString)
    (upcoming : Upcoming mem data size blob stream start)
    {entry : (Option CString × Property) × Nat}
    (member : entry ∈ (entered node (stream.filterMap Token.event?)).zip
      (valueOffsets start stream)) :
    mem.Holds (blob.p + BitVec.ofNat 32 entry.2) entry.1.2.value ∧
      entry.1.2.value.length < 2 ^ 32 := by
  induction stream generalizing start node with
  | nil => cases member
  | cons token rest ih =>
      cases token with
      | beginNode name => exact ih (some name) upcoming.next member
      | endNode => exact ih none upcoming.next member
      | nop => exact ih node upcoming.next member
      | prop nameoff property =>
          simp only [List.filterMap_cons, Token.event?, entered, valueOffsets,
            List.zip_cons_cons, List.mem_cons] at member
          rcases member with rfl | later
          · refine ⟨?_, upcoming.prop_value_small⟩
            rw [← Word.add_ofNat_add_ofNat]
            exact upcoming.prop_fields.2.2
          · exact ih node upcoming.next later

end Stream

/-! A serialised tree in memory. -/

theorem length_of_prefix_drop {part bytes : List Byte} {offset : Nat}
    (isPart : part <+: bytes.drop offset) (nonempty : part ≠ []) :
    offset + part.length ≤ bytes.length := by
  have short := isPart.length_le
  have positive := List.length_pos_iff.mpr nonempty
  rw [List.length_drop] at short
  omega

namespace Serialisation

variable {root : Node} (blob : Serialisation root) {mem : Memory} {data : Word}
  (held : mem.Holds data blob.bytes)

include held

theorem beWord_header {value : Word} {i : Nat} (near : i ≤ 28)
    (field : Memory.beBytes value <+: blob.bytes.drop i) :
    mem.beWord (data + BitVec.ofNat 32 i) = value :=
  Memory.holds_beBytes.mp
    (held.slice field (near.trans blob.header))

theorem headerBlob_eq :
    headerBlob mem data =
      ⟨data + blob.offDtStruct, data + blob.offDtStrings,
        data + BitVec.ofNat 32 blob.bytes.length⟩ := by
  have structAt := blob.beWord_header held (by decide) blob.structField
  have stringsAt := blob.beWord_header held (by decide) blob.stringsField
  have totalAt := blob.beWord_header held (by decide) blob.totalsizeField
  simp only [headerBlob, ntohl_word]
  congr 2

theorem upcoming (fits : data.toNat + blob.bytes.length < 2 ^ 32) :
    Upcoming mem data blob.bytes.length (headerBlob mem data) blob.stream 0 := by
  have structNear := length_of_prefix_drop blob.block
    (by simp [structBlock, Memory.beBytes])
  have nameNear (nameoff : Word) (property : Property)
      (member : .prop nameoff property ∈ blob.stream) :=
    length_of_prefix_drop (blob.names nameoff property member)
      (by simp [CString.stored])
  have small := blob.size
  have place (i : Nat) (near : i < blob.bytes.length) :
      (data + BitVec.ofNat 32 i - data).toNat = i := by
    rw [show data + BitVec.ofNat 32 i - data = BitVec.ofNat 32 i by bv_omega,
      BitVec.toNat_ofNat]
    omega
  have asNat (word : Word) : word = BitVec.ofNat 32 word.toNat := by simp
  rw [blob.headerBlob_eq held]
  refine ⟨fits, rfl, ?_, ?_, Nat.dvd_zero 4, ?_, ?_⟩
  · have stands := held.slice blob.block (by omega)
    rw [← asNat] at stands
    simpa using stands
  · have long := Upcoming.four_le_length_structBlock blob.stream
    rw [asNat blob.offDtStruct, place _ (by omega)]
    omega
  · intro nameoff property member
    have near := nameNear nameoff property member
    have stands := held.slice (blob.names nameoff property member) (by omega)
    rw [← Word.add_ofNat_add_ofNat, ← asNat, ← asNat] at stands
    exact stands
  · intro nameoff property member
    have near := nameNear nameoff property member
    rw [CString.length_stored] at near
    rw [asNat blob.offDtStrings, asNat nameoff, Word.add_ofNat_add_ofNat,
      place _ (by omega)]
    omega

omit held

theorem find?_wanted (nodeName propName : CString) :
    ((entered none (blob.stream.filterMap Token.event?)).zip
        (valueOffsets 0 blob.stream)).find? (wanted nodeName propName) =
      ((root.located.zip (valueOffsets 0 blob.stream)).find? fun entry =>
        entry.1.1 = nodeName ∧ entry.1.2.name = propName).map
          (Prod.map (Prod.map some id) id) := by
  rw [blob.tokens, root.entered_events_eq_located, List.zip_map_left,
    List.find?_map]
  congr 2
  funext entry
  simp [wanted]

theorem resultOf_find? (data : Word) (nodeName propName : CString) (n t : Word) :
    Blob.resultOf ⟨data + blob.offDtStruct, n, t⟩
        (((entered none (blob.stream.filterMap Token.event?)).zip
          (valueOffsets 0 blob.stream)).find? (wanted nodeName propName)) =
      blob.result data nodeName propName := by
  rw [blob.find?_wanted, result, lookup]
  cases (root.located.zip (valueOffsets 0 blob.stream)).find? fun entry =>
    entry.1.1 = nodeName ∧ entry.1.2.name = propName with
  | none => rfl
  | some entry => rfl

theorem lookup_held (held : mem.Holds data blob.bytes)
    (fits : data.toNat + blob.bytes.length < 2 ^ 32)
    {nodeName propName : CString} {property : Property} {offset : Nat}
    (found : blob.lookup nodeName propName = some (property, offset)) :
    mem.Holds (data + blob.offDtStruct + BitVec.ofNat 32 offset)
        property.value ∧ property.value.length < 2 ^ 32 := by
  obtain ⟨entry, hit, same⟩ := Option.map_eq_some_iff.mp found
  have member := @List.mem_map_of_mem _ _ _ _
    (Prod.map (Prod.map some id) id) (List.mem_of_find?_eq_some hit)
  rw [← List.zip_map_left, ← root.entered_events_eq_located,
    ← blob.tokens] at member
  have stands := (blob.upcoming held fits).value_held none member
  rw [blob.headerBlob_eq held] at stands
  cases same
  exact stands

/-- The walk of a lookup, to its result and over what it reads. -/
theorem walk (held : mem.Holds data blob.bytes)
    (fits : data.toNat + blob.bytes.length < 2 ^ 32)
    (nodeName propName : CString) :
    (fdtGetProp mem data nodeName propName).val =
        some (blob.result data nodeName propName) ∧
      (fdtGetProp mem data nodeName propName).ReadsIn
        (Word.Within data blob.bytes.length) := by
  have upcoming := blob.upcoming held fits
  have walk := @Upcoming.walk _ _ _ _ nodeName propName _ _ none upcoming
  constructor
  · rw [fdtGetProp_val_eq_some_iff, ← blob.resultOf_find?]
    rw [blob.headerBlob_eq held] at walk
    unfold walkBody
    rw [blob.headerBlob_eq held]
    exact walk.1
  · rw [readsIn_fdtGetProp_iff blob.size]
    have long := blob.header
    exact ⟨le_trans (by decide) long, walk.2⟩

end Serialisation

/-- A lookup in a serialised tree inverts the serialisation. -/
theorem fdtGetProp_inverts (root : Node) (blob : Serialisation root)
    (mem : Memory) (data : Word) (nodeName propName : CString)
    (held : mem.Holds data blob.bytes)
    (fits : data.toNat + blob.bytes.length < 2 ^ 32) :
    (fdtGetProp mem data nodeName propName).val =
        some (blob.result data nodeName propName) ∧
      (fdtGetProp mem data nodeName propName).ReadsIn
        (Word.Within data blob.bytes.length) ∧
      ∀ property offset,
        blob.lookup nodeName propName = some (property, offset) →
        (blob.result data nodeName propName).len.toNat =
            property.value.length ∧
          mem.Holds (blob.result data nodeName propName).ptr
            property.value := by
  obtain ⟨value, reads⟩ := blob.walk held fits nodeName propName
  refine ⟨value, reads, ?_⟩
  intro property offset found
  obtain ⟨stands, small⟩ := blob.lookup_held held fits found
  have result : blob.result data nodeName propName =
      ⟨data + blob.offDtStruct + BitVec.ofNat 32 offset,
        BitVec.ofNat 32 property.value.length⟩ := by
    rw [Serialisation.result, found]
  rw [result]
  exact ⟨by rw [BitVec.toNat_ofNat, Nat.mod_eq_of_lt small], stands⟩

def kernelTree : Node :=
  .mk (.lit "") []
    (.cons
      (.mk (.lit "kernel@1")
        [⟨.lit "load", [0x80, 0x20, 0x80, 0x00]⟩, ⟨.lit "data", [1, 2, 3]⟩]
        (.cons (.mk (.lit "hash@1") [] .nil) .nil))
      .nil)

def kernelStream : List Token :=
  [.beginNode (.lit ""), .nop, .beginNode (.lit "kernel@1"),
    .prop 0 ⟨.lit "load", [0x80, 0x20, 0x80, 0x00]⟩, .nop,
    .prop 5 ⟨.lit "data", [1, 2, 3]⟩, .beginNode (.lit "hash@1"), .endNode,
    .endNode, .endNode]

def kernelBlob : Serialisation kernelTree where
  bytes := headerBytes 144 52 40 ++ (CString.lit "load").stored ++
    (CString.lit "data").stored ++ [0, 0] ++ structBlock kernelStream
  offDtStruct := 52
  offDtStrings := 40
  stream := kernelStream
  header := by decide +kernel
  size := by decide +kernel
  totalsizeField := by decide +kernel
  structField := by decide +kernel
  stringsField := by decide +kernel
  aligned := by decide +kernel
  tokens := by decide +kernel
  block := by decide +kernel
  names := by
    intro nameoff property member
    simp only [kernelStream, List.mem_cons, reduceCtorEq, Token.prop.injEq,
      List.not_mem_nil, false_or, or_false] at member
    rcases member with ⟨rfl, rfl⟩ | ⟨rfl, rfl⟩
    · decide +kernel
    · decide +kernel

example : kernelBlob.result 0x84805000 (.lit "kernel@1") (.lit "data") =
    ⟨0x84805070, 3⟩ := by decide +kernel

theorem fdtGetProp_inverts_kernel :
    let mem : Memory := .ofBytes 0x84805000 kernelBlob.bytes
    (fdtGetProp mem 0x84805000 (.lit "kernel@1") (.lit "data")).val =
        some (kernelBlob.result 0x84805000 (.lit "kernel@1") (.lit "data")) ∧
      (fdtGetProp mem 0x84805000 (.lit "kernel@1") (.lit "data")).ReadsIn
        (Word.Within 0x84805000 kernelBlob.bytes.length) ∧
      ∀ property offset,
        kernelBlob.lookup (.lit "kernel@1") (.lit "data") =
          some (property, offset) →
        (kernelBlob.result 0x84805000 (.lit "kernel@1")
            (.lit "data")).len.toNat = property.value.length ∧
          mem.Holds (kernelBlob.result 0x84805000 (.lit "kernel@1")
            (.lit "data")).ptr property.value :=
  fdtGetProp_inverts kernelTree kernelBlob _ 0x84805000 (.lit "kernel@1")
    (.lit "data") (by decide +kernel) (by decide +kernel)

end AuxLoader.Fdt
