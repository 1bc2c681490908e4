import AuxLoader.Fdt.Termination

namespace AuxLoader.Fdt

open Data

/-! Which bytes the walk reads. -/

section Strings

variable {mem : Memory} {base : Word} {size : Nat}

/-- The comparison of `bytes` with the string at `s2` gets as far as `a`. -/
def ComparesAt (mem : Memory) (bytes : List Byte) (s2 a : Word) : Prop :=
  ∃ k, (∀ j, j < k → bytes[j]? = some (mem (s2 + BitVec.ofNat 32 j))) ∧
    a = s2 + BitVec.ofNat 32 k

theorem comparesAt_of_differs {bytes : List Byte} {s2 a : Word}
    (differs : bytes[0]? ≠ some (mem s2)) :
    ComparesAt mem bytes s2 a ↔ a = s2 := by
  constructor
  · rintro ⟨k, agree, here⟩
    cases k with
    | zero => simpa using here
    | succ k => exact absurd (by simpa using agree 0 k.succ_pos) differs
  · intro here
    exact ⟨0, by simp, by simpa using here⟩

theorem comparesAt_cons {s1 : List Byte} {s2 a : Word} :
    ComparesAt mem (mem s2 :: s1) s2 a ↔
      a = s2 ∨ ComparesAt mem s1 (s2 + 1) a := by
  have shift (j : Nat) : s2 + 1 + BitVec.ofNat 32 j =
      s2 + BitVec.ofNat 32 (j + 1) := by
    rw [Nat.add_comm]
    exact Word.add_ofNat_add_ofNat s2 1 j
  simp only [ComparesAt, shift]
  constructor
  · rintro ⟨k, agree, here⟩
    cases k with
    | zero => exact .inl (by simpa using here)
    | succ k =>
        refine .inr ⟨k, fun j bound => ?_, here⟩
        simpa using agree (j + 1) (by omega)
  · rintro (here | ⟨k, agree, here⟩)
    · exact ⟨0, by simp, by simpa using here⟩
    · refine ⟨k + 1, fun j bound => ?_, here⟩
      cases j with
      | zero => simp
      | succ j => simpa using agree j (by omega)

theorem mem_fdtStreq_reads {bytes : List Byte} (noNul : ∀ b ∈ bytes, b ≠ 0)
    {s2 a : Word} :
    a ∈ (fdtStreq mem bytes s2).reads ↔ ComparesAt mem bytes s2 a := by
  induction bytes generalizing s2 with
  | nil =>
      rw [comparesAt_of_differs (by simp)]
      simp [fdtStreq]
  | cons c s1 ih =>
      have tail := @ih (fun b hb => noNul b (by simp [hb])) (s2 + 1)
      simp only [fdtStreq, Traced.reads_bind, Memory.reads_loadByte,
        Memory.val_loadByte, List.mem_append, List.mem_singleton]
      by_cases same : c = mem s2
      · have present : mem s2 ≠ 0 := by
          rw [← same]
          exact noNul c (by simp)
        rw [if_neg present, if_neg (not_not_intro same), tail, same,
          comparesAt_cons]
      · rw [comparesAt_of_differs (by simpa using same)]
        by_cases nul : mem s2 = 0
        · simp [nul]
        · simp [same]

theorem readsIn_fdtStreq_iff (bound : size < 2 ^ 32) (s : CString)
    {s2 : Word} :
    (fdtStreq mem s.bytes s2).ReadsIn (Word.Within base size) ↔
      ∃ k, (s2 - base).toNat + k < size ∧
        s.bytes[k]? ≠ some (mem (s2 + BitVec.ofNat 32 k)) := by
  rw [← Word.scan_within_iff bound]
  simp only [Traced.ReadsIn, mem_fdtStreq_reads s.noNul]
  constructor
  · intro inside k agree
    exact inside _ ⟨k, agree, rfl⟩
  · rintro inside _ ⟨k, agree, rfl⟩
    exact inside k agree

theorem readsIn_fdtStrlen_iff (bound : size < 2 ^ 32) {s : Word} :
    (fdtStrlen mem s).ReadsIn (Word.Within base size) ↔
      ∃ k, (s - base).toNat + k < size ∧
        mem (s + BitVec.ofNat 32 k) = 0 := by
  have scan := @Word.scan_within_iff base s size bound
    fun j => mem (s + BitVec.ofNat 32 j) ≠ 0
  simp only [not_not] at scan
  rw [← scan]
  simp only [Traced.ReadsIn, mem_fdtStrlen_reads]
  constructor
  · intro inside k before
    exact inside _ ⟨k, before, rfl⟩
  · rintro inside _ ⟨k, before, rfl⟩
    exact inside k before

theorem readsIn_fdtStreq_of_fdtStrlen (bound : size < 2 ^ 32) (s : CString)
    {s2 : Word}
    (inside : (fdtStrlen mem s2).ReadsIn (Word.Within base size)) :
    (fdtStreq mem s.bytes s2).ReadsIn (Word.Within base size) := by
  rw [readsIn_fdtStrlen_iff bound] at inside
  obtain ⟨k, near, nul⟩ := inside
  rw [readsIn_fdtStreq_iff bound]
  refine ⟨k, near, fun agree => ?_⟩
  rw [nul] at agree
  exact s.noNul 0 (List.mem_of_getElem? agree) rfl

end Strings

/-! One token. -/

/-- Everything the iteration at the token touches lies below `size`. The tag
is touched before any guard; the rest only behind the guards it stands
behind. -/
structure TokenFits (mem : Memory) (blob : Blob) (data : Word) (size : Nat)
    (propName : CString) (s : WalkState) : Prop where
  tag : (blob.p + s.offset - data).toNat + 4 ≤ size
  name : blob.TagInRange s.offset →
    blob.tagAt mem s.offset = fdtBeginNode →
    ∃ k, (blob.p + s.offset + fdtTagsize - data).toNat + k < size ∧
      mem (blob.p + s.offset + fdtTagsize + BitVec.ofNat 32 k) = 0
  len : blob.TagInRange s.offset → blob.tagAt mem s.offset = fdtProp →
    (s.isNodeFound = true → blob.PropInRange mem s.offset) →
    (blob.p + s.offset + fdtTagsize - data).toNat + 4 ≤ size
  nameoff : blob.TagInRange s.offset → blob.tagAt mem s.offset = fdtProp →
    s.isNodeFound = true → blob.valueAt s.offset < blob.t →
    (blob.p + s.offset + FdtProperty.nameoff - data).toNat + 4 ≤ size
  propName : blob.TagInRange s.offset → blob.tagAt mem s.offset = fdtProp →
    s.isNodeFound = true → blob.PropInRange mem s.offset →
    ∃ k, (blob.nameAt mem s.offset - data).toNat + k < size ∧
      propName.bytes[k]? ≠
        some (mem (blob.nameAt mem s.offset + BitVec.ofNat 32 k))

section Iteration

variable {mem : Memory} {blob : Blob} {nodeName propName : CString}
  {data : Word} {size : Nat}

theorem readsIn_beginNodeToken_iff (bound : size < 2 ^ 32) (offset : Word) :
    (beginNodeToken mem blob nodeName (offset + fdtTagsize)).ReadsIn
        (Word.Within data size) ↔
      ∃ k, (blob.p + offset + fdtTagsize - data).toNat + k < size ∧
        mem (blob.p + offset + fdtTagsize + BitVec.ofNat 32 k) = 0 := by
  rw [← readsIn_fdtStrlen_iff bound]
  simp only [beginNodeToken, Traced.readsIn_bind, Blob.beyond_tag]
  constructor
  · intro inside
    exact inside.2.1
  · intro inside
    refine ⟨readsIn_fdtStreq_of_fdtStrlen bound nodeName inside, inside, ?_⟩
    cases (fdtStrlen mem (blob.p + offset + fdtTagsize)).val with
    | none => simp
    | some len => simp

theorem readsIn_skipProp_iff (bound : size < 2 ^ 32) (isNodeFound : Bool)
    (offset : Word) :
    (skipProp mem blob isNodeFound (offset + fdtTagsize)).ReadsIn
        (Word.Within data size) ↔
      (blob.p + offset + fdtTagsize - data).toNat + 4 ≤ size := by
  simp only [skipProp, Traced.readsIn_bind, Traced.readsIn_pure, and_true,
    Memory.readsIn_loadWord_iff bound, Blob.beyond_tag]

theorem readsIn_propToken_iff (bound : size < 2 ^ 32) (isNodeFound : Bool)
    (offset : Word) :
    (propToken mem blob propName isNodeFound (offset + fdtTagsize)).ReadsIn
        (Word.Within data size) ↔
      ((isNodeFound = true → blob.PropInRange mem offset) →
        (blob.p + offset + fdtTagsize - data).toNat + 4 ≤ size) ∧
      (isNodeFound = true → blob.valueAt offset < blob.t →
        (blob.p + offset + FdtProperty.nameoff - data).toNat + 4 ≤ size) ∧
      (isNodeFound = true → blob.PropInRange mem offset →
        ∃ k, (blob.nameAt mem offset - data).toNat + k < size ∧
          propName.bytes[k]? ≠
            some (mem (blob.nameAt mem offset + BitVec.ofNat 32 k))) := by
  cases isNodeFound with
  | false => simp [propToken, readsIn_skipProp_iff bound]
  | true =>
      simp only [propToken, if_true, Blob.beyond_tag, Blob.before_tag,
        Traced.readsIn_ite, Traced.readsIn_bind, Traced.readsIn_pure,
        Memory.readsIn_loadWord_iff bound, Memory.val_loadWord, ntohl_word,
        readsIn_fdtStreq_iff bound, readsIn_skipProp_iff bound, and_true,
        implies_true, true_and, true_implies, ge_iff_le, BitVec.not_le]
      change (blob.valueAt offset < blob.t →
        _ ∧ (blob.nameAt mem offset < blob.t → _ ∧ _)) ↔ _
      have both {P : Prop} :
          (blob.PropInRange mem offset → P) ↔
            (blob.valueAt offset < blob.t →
              blob.nameAt mem offset < blob.t → P) := and_imp
      simp only [both]
      constructor
      · intro reads
        refine ⟨fun value name => ?_, fun value => (reads value).1,
          fun value name => ((reads value).2 name).1⟩
        -- The length is read on a hit and on a miss.
        have branches := ((reads value).2 name).2
        exact (em _).elim branches.1 branches.2
      · rintro ⟨length, nameoff, string⟩ value
        exact ⟨nameoff value, fun name => ⟨string value name,
          fun _ => length value name, fun _ => length value name⟩⟩

theorem readsIn_fdtGetPropBody_iff (bound : size < 2 ^ 32) (s : WalkState) :
    (fdtGetPropBody mem blob nodeName propName s).ReadsIn
        (Word.Within data size) ↔
      TokenFits mem blob data size propName s := by
  simp only [fdtGetPropBody, Traced.readsIn_bind, Traced.readsIn_ite,
    Traced.readsIn_pure, Memory.readsIn_loadWord_iff bound,
    Memory.val_loadWord, ntohl_word, readsIn_beginNodeToken_iff bound,
    readsIn_propToken_iff bound, implies_true, and_true, true_and, ge_iff_le,
    BitVec.not_le]
  constructor
  · rintro ⟨tag, guarded⟩
    refine ⟨tag, fun inRange isBegin => ?_, fun inRange isProp => ?_,
      fun inRange isProp => ?_, fun inRange isProp => ?_⟩
    · have notEnd : mem.beWord (blob.p + s.offset) ≠ fdtEnd := by
        rw [show mem.beWord (blob.p + s.offset) = fdtBeginNode from isBegin]
        decide
      exact (guarded inRange notEnd).1 isBegin
    all_goals
      have other : mem.beWord (blob.p + s.offset) ≠ fdtEnd ∧
          mem.beWord (blob.p + s.offset) ≠ fdtBeginNode := by
        rw [show mem.beWord (blob.p + s.offset) = fdtProp from isProp]
        decide
      have fits := (guarded inRange other.1).2 other.2 isProp
    · exact fits.1
    · exact fits.2.1
    · exact fits.2.2
  · intro fits
    exact ⟨fits.tag, fun inRange _ => ⟨fits.name inRange, fun _ isProp =>
      ⟨fits.len inRange isProp, fits.nameoff inRange isProp,
        fits.propName inRange isProp⟩⟩⟩

end Iteration

/-! The whole walk. -/

section Lookup

variable {mem : Memory} {data : Word} {nodeName propName : CString}

theorem readsIn_fdtGetProp_iff {size : Nat} (bound : size < 2 ^ 32) :
    (fdtGetProp mem data nodeName propName).ReadsIn (Word.Within data size) ↔
      16 ≤ size ∧
        ∀ s, (walkBody mem data nodeName propName).Reaches .start s →
          TokenFits mem (headerBlob mem data) data size propName s := by
  have field (offset : Word) : data + offset - data = offset := by bv_omega
  have header : (FdtHeader.offDtStruct.toNat + 4 ≤ size ∧
      FdtHeader.offDtStrings.toNat + 4 ≤ size ∧
      FdtHeader.totalsize.toNat + 4 ≤ size) ↔ 16 ≤ size := by
    have offsets : FdtHeader.offDtStruct.toNat = 8 ∧
        FdtHeader.offDtStrings.toNat = 12 ∧
        FdtHeader.totalsize.toNat = 4 := by decide
    omega
  have walk := @Loop.readsIn_run_iff_reaches _ _ _ _
    (walkBody mem data nodeName propName) _ card_walkState.le .start
    (Word.Within data size)
  simp only [fdtGetProp, Traced.readsIn_bind, Traced.readsIn_pure, and_true,
    Memory.readsIn_loadWord_iff bound, field, Memory.val_loadWord]
  simp only [readsIn_fdtGetPropBody_iff bound] at walk
  rw [← header, ← walk]
  simp only [and_assoc]
  rfl

end Lookup

/-- The walk reads inside the blob exactly when the blob has room for the
header words and every token the walk comes to is inside, with the strings it
leads to. -/
theorem fdtGetProp_reads_inside_iff (mem : Memory) (data : Word)
    (nodeName propName : CString) :
    (fdtGetProp mem data nodeName propName).ReadsIn (Word.Within data
        (mem.beWord (data + FdtHeader.totalsize)).toNat) ↔
      16 ≤ (mem.beWord (data + FdtHeader.totalsize)).toNat ∧
        ∀ s, (walkBody mem data nodeName propName).Reaches .start s →
          TokenFits mem (headerBlob mem data) data
            (mem.beWord (data + FdtHeader.totalsize)).toNat propName s :=
  readsIn_fdtGetProp_iff (BitVec.isLt _)

/-! A node name that fills the blob up to its last byte. -/

def endlessNameBytes : List Byte :=
  headerBytes 52 40 40 ++ Memory.beBytes fdtBeginNode ++
    (CString.lit "kernel@1").bytes

theorem fdtGetProp_reads_beyond :
    let mem : Memory := .ofBytes 0x84805000 endlessNameBytes
    fdtCheckHeader mem 0x84805000 52 = 0 ∧
      (0x84805000 : Word).toNat + 52 < 2 ^ 32 ∧
      ¬ (fdtGetProp mem 0x84805000 (.lit "kernel@1") (.lit "load")).ReadsIn
        (Word.Within 0x84805000
          (mem.beWord (0x84805000 + FdtHeader.totalsize)).toNat) := by
  refine ⟨by decide +kernel, by decide, fun inside => ?_⟩
  have last : (0x84805034 : Word) ∈ (fdtGetProp
      (.ofBytes 0x84805000 endlessNameBytes) 0x84805000 (.lit "kernel@1")
      (.lit "load")).reads := by decide +kernel
  exact absurd (inside _ last) (by decide +kernel)

end AuxLoader.Fdt
