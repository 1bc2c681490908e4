import AuxLoader.Fdt.Lookup

namespace AuxLoader.Fdt

open Data

/-! What the string helpers compute and what one iteration of the walk does. -/

theorem toNat_fdtTagalign (x : Word) :
    (fdtTagalign x).toNat = (x.toNat + 3) % 2 ^ 32 / 4 * 4 := by
  have mask : fdtTagsize - 1 = 3 := by decide
  have shift : x + fdtTagsize - 1 = x + 3 := by
    simp only [fdtTagsize]
    bv_omega
  rw [fdtTagalign, mask, shift, Word.toNat_and_not_three, BitVec.toNat_add]
  rfl

def roundUp (n : Nat) : Nat := (n + 3) / 4 * 4

theorem le_roundUp (n : Nat) : n ≤ roundUp n := by
  unfold roundUp
  omega

theorem fdtStreq_val_iff_holds (mem : Memory) (bytes : List Byte)
    (noNul : ∀ b ∈ bytes, b ≠ 0) (s2 : Word) :
    (fdtStreq mem bytes s2).val = true ↔ mem.Holds s2 (bytes ++ [0]) := by
  induction bytes generalizing s2 with
  | nil => simp [fdtStreq]
  | cons c s1 ih =>
      have head : c ≠ 0 := noNul c (by simp)
      have tail := ih (fun b hb => noNul b (by simp [hb])) (s2 + 1)
      simp only [fdtStreq, Traced.val_bind, Memory.val_loadByte,
        List.cons_append, Memory.holds_cons]
      by_cases nul : mem s2 = 0
      · rw [if_pos nul]
        refine iff_of_false (by simp) fun held => head ?_
        rw [← held.1, nul]
      · rw [if_neg nul]
        by_cases same : c = mem s2
        · rw [if_neg (not_not_intro same)]
          simp only [tail, same, true_and]
        · rw [if_pos same]
          exact iff_of_false (by simp) fun held => same held.1.symm

theorem fdtStreq_val_iff (mem : Memory) (s : CString) (s2 : Word) :
    (fdtStreq mem s.bytes s2).val = true ↔ s.At mem s2 :=
  fdtStreq_val_iff_holds mem s.bytes s.noNul s2

/-! The name scan. -/

/-- The first NUL at or above the address is `n` bytes away. -/
def FirstNul (mem : Memory) (address : Word) (n : Nat) : Prop :=
  (∀ i, i < n → mem (address + BitVec.ofNat 32 i) ≠ 0) ∧
    mem (address + BitVec.ofNat 32 n) = 0

theorem FirstNul.unique {mem : Memory} {address : Word} {n m : Nat}
    (first : FirstNul mem address n) (second : FirstNul mem address m) :
    n = m := by
  rcases Nat.lt_trichotomy n m with before | same | after
  · exact absurd first.2 (second.1 n before)
  · exact same
  · exact absurd second.2 (first.1 m after)

theorem fdtStrlenBody_val (mem : Memory) (state : Word × Word) :
    (fdtStrlenBody mem state).val =
      if mem state.1 ≠ 0 then .inl (state.1 + 1, state.2 + 1)
      else .inr state.2 := by
  simp only [fdtStrlenBody, Traced.val_bind, Memory.val_loadByte]
  split <;> rfl

theorem fdtStrlenBody_reads (mem : Memory) (state : Word × Word) :
    (fdtStrlenBody mem state).reads = [state.1] := by
  simp only [fdtStrlenBody, Traced.reads_bind, Memory.val_loadByte]
  split <;> rfl

theorem fdtStrlen_stateAt (mem : Memory) (s : Word) (n : Nat)
    (state : Word × Word) :
    (fdtStrlenBody mem).stateAt (s, 0) n = some state ↔
      (∀ i, i < n → mem (s + BitVec.ofNat 32 i) ≠ 0) ∧
        state = (s + BitVec.ofNat 32 n, BitVec.ofNat 32 n) := by
  induction n generalizing state with
  | zero => simp [eq_comm]
  | succ n ih =>
      have next : s + BitVec.ofNat 32 n + 1 = s + BitVec.ofNat 32 (n + 1) :=
        Word.add_ofNat_add_ofNat s n 1
      have count : BitVec.ofNat 32 n + 1 = BitVec.ofNat 32 (n + 1) :=
        (BitVec.ofNat_add n 1).symm
      rw [Loop.stateAt_succ_eq_some]
      simp only [ih, Loop.Step, fdtStrlenBody_val]
      constructor
      · rintro ⟨_, ⟨before, rfl⟩, step⟩
        split at step
        next nonzero =>
          cases step
          refine ⟨fun i bound => ?_, by rw [next, count]⟩
          rcases Nat.lt_succ_iff_lt_or_eq.mp bound with earlier | rfl
          · exact before i earlier
          · exact nonzero
        next => cases step
      · rintro ⟨before, rfl⟩
        refine ⟨_, ⟨fun i bound => before i (by omega), rfl⟩, ?_⟩
        rw [if_pos (before n n.lt_succ_self), next, count]

theorem card_word : Fintype.card Word = 2 ^ 32 := by
  rw [← FinEnum.card_eq_fintypeCard, FinEnum.card_bitVec]

theorem fdtStrlen_val_eq_some {mem : Memory} {s len : Word} :
    (fdtStrlen mem s).val = some len ↔
      ∃ n, FirstNul mem s n ∧ len = BitVec.ofNat 32 n := by
  have enough : Fintype.card (Word × Word) ≤ 2 ^ 64 := by
    rw [Fintype.card_prod, card_word]
    decide
  rw [fdtStrlen, Loop.run_val_eq_some_iff_exits enough,
    Loop.exits_iff_stateAt]
  simp only [fdtStrlen_stateAt, fdtStrlenBody_val]
  constructor
  · rintro ⟨n, _, ⟨before, rfl⟩, exit⟩
    split at exit
    next => cases exit
    next nul =>
      cases exit
      exact ⟨n, ⟨before, not_not.mp nul⟩, rfl⟩
  · rintro ⟨n, ⟨before, nul⟩, rfl⟩
    exact ⟨n, _, ⟨before, rfl⟩, by rw [if_neg (not_not_intro nul)]⟩

theorem FirstNul.strlen {mem : Memory} {s : Word} {n : Nat}
    (first : FirstNul mem s n) :
    (fdtStrlen mem s).val = some (BitVec.ofNat 32 n) :=
  fdtStrlen_val_eq_some.mpr ⟨n, first, rfl⟩

theorem mem_fdtStrlen_reads {mem : Memory} {s a : Word} :
    a ∈ (fdtStrlen mem s).reads ↔
      ∃ n, (∀ i, i < n → mem (s + BitVec.ofNat 32 i) ≠ 0) ∧
        a = s + BitVec.ofNat 32 n := by
  have enough : Fintype.card (Word × Word) ≤ 2 ^ 64 := by
    rw [Fintype.card_prod, card_word]
    decide
  rw [fdtStrlen, Loop.mem_reads_run_iff_reaches enough]
  simp only [Loop.reaches_iff_stateAt, fdtStrlen_stateAt,
    fdtStrlenBody_reads, List.mem_singleton]
  constructor
  · rintro ⟨_, ⟨n, before, rfl⟩, rfl⟩
    exact ⟨n, before, rfl⟩
  · rintro ⟨n, before, rfl⟩
    exact ⟨_, ⟨n, before, rfl⟩, rfl⟩

/-! One iteration, token by token. Offsets are of the tag. -/

namespace Blob

variable (blob : Blob) (mem : Memory) (offset : Word)

def tagAt : Word := mem.beWord (blob.p + offset)

def lenAt : Word := mem.beWord (blob.p + offset + fdtTagsize)

def nameAt : Word :=
  blob.n + mem.beWord (blob.p + offset + FdtProperty.nameoff)

def valueAt : Word := blob.p + offset + FdtProperty.size

def TagInRange : Prop := blob.p + offset + fdtTagsize < blob.t

/-- The two guards in front of a name comparison let the token through. -/
def PropInRange : Prop :=
  blob.valueAt offset < blob.t ∧ blob.nameAt mem offset < blob.t

instance : Decidable (blob.TagInRange offset) :=
  inferInstanceAs (Decidable (_ < _))

instance : Decidable (blob.PropInRange mem offset) :=
  inferInstanceAs (Decidable (_ ∧ _))

theorem beyond_tag :
    blob.p + (offset + fdtTagsize) = blob.p + offset + fdtTagsize :=
  (BitVec.add_assoc ..).symm

theorem before_tag :
    blob.p + offset + fdtTagsize - fdtTagsize = blob.p + offset :=
  BitVec.add_sub_cancel ..

end Blob

section Iteration

variable (mem : Memory) (blob : Blob) (nodeName propName : CString)

theorem beginNodeToken_val (offset : Word) :
    (beginNodeToken mem blob nodeName (offset + fdtTagsize)).val =
      match (fdtStrlen mem (blob.p + offset + fdtTagsize)).val with
      | none => .inr none
      | some len =>
          .inl ⟨fdtTagalign (offset + fdtTagsize + (len + 1)),
            (fdtStreq mem nodeName.bytes
              (blob.p + offset + fdtTagsize)).val⟩ := by
  simp only [beginNodeToken, Traced.val_bind, Blob.beyond_tag]
  cases (fdtStrlen mem (blob.p + offset + fdtTagsize)).val <;> rfl

theorem skipProp_val (isNodeFound : Bool) (offset : Word) :
    (skipProp mem blob isNodeFound (offset + fdtTagsize)).val =
      .inl ⟨fdtTagalign (offset + fdtTagsize +
        (FdtProperty.size - fdtTagsize + blob.lenAt mem offset)),
        isNodeFound⟩ := by
  simp only [skipProp, Traced.val_bind, Traced.val_pure, Blob.beyond_tag,
    Memory.val_loadWord, ntohl_word, Blob.lenAt]

theorem propToken_val (isNodeFound : Bool) (offset : Word) :
    (propToken mem blob propName isNodeFound (offset + fdtTagsize)).val =
      if isNodeFound = true ∧ ¬ blob.PropInRange mem offset then
        .inr (some .null)
      else if isNodeFound = true ∧
          propName.At mem (blob.nameAt mem offset) then
        .inr (some ⟨blob.valueAt offset, blob.lenAt mem offset⟩)
      else
        .inl ⟨fdtTagalign (offset + fdtTagsize +
          (FdtProperty.size - fdtTagsize + blob.lenAt mem offset)),
          isNodeFound⟩ := by
  cases isNodeFound with
  | false =>
      simp only [propToken, Bool.false_eq_true, if_false, false_and,
        skipProp_val]
  | true =>
      simp only [propToken, if_true, true_and, apply_ite Traced.val,
        Traced.val_bind, Traced.val_pure, Blob.beyond_tag, Blob.before_tag,
        Memory.val_loadWord, ntohl_word, skipProp_val, fdtStreq_val_iff,
        ge_iff_le]
      change (if blob.t ≤ blob.valueAt offset then _
        else if blob.t ≤ blob.nameAt mem offset then _ else _) = _
      by_cases value : blob.t ≤ blob.valueAt offset
      · have outside : ¬ blob.PropInRange mem offset := fun inside =>
          BitVec.not_lt.mpr value inside.1
        rw [if_pos value, if_pos outside]
      · by_cases name : blob.t ≤ blob.nameAt mem offset
        · have outside : ¬ blob.PropInRange mem offset := fun inside =>
            BitVec.not_lt.mpr name inside.2
          rw [if_neg value, if_pos name, if_pos outside]
        · have inside : blob.PropInRange mem offset :=
            ⟨BitVec.not_le.mp value, BitVec.not_le.mp name⟩
          rw [if_neg value, if_neg name, if_neg (not_not_intro inside)]
          rfl

theorem fdtGetPropBody_val (s : WalkState) :
    (fdtGetPropBody mem blob nodeName propName s).val =
      if ¬ blob.TagInRange s.offset then .inr (some .null)
      else if blob.tagAt mem s.offset = fdtEnd then .inr (some .null)
      else if blob.tagAt mem s.offset = fdtBeginNode then
        (beginNodeToken mem blob nodeName (s.offset + fdtTagsize)).val
      else if blob.tagAt mem s.offset = fdtProp then
        (propToken mem blob propName s.isNodeFound
          (s.offset + fdtTagsize)).val
      else if blob.tagAt mem s.offset = fdtEndNode then
        .inl ⟨fdtTagalign (s.offset + fdtTagsize), false⟩
      else if blob.tagAt mem s.offset = fdtNop then
        .inl ⟨fdtTagalign (s.offset + fdtTagsize), s.isNodeFound⟩
      else .inr (some .null) := by
  simp only [fdtGetPropBody, Traced.val_bind, Memory.val_loadWord, ntohl_word,
    apply_ite Traced.val, Traced.val_pure, ge_iff_le]
  exact if_congr BitVec.not_lt.symm rfl (if_congr .rfl rfl
    (if_congr .rfl rfl (if_congr .rfl rfl
      (if_congr .rfl rfl (if_congr .rfl rfl rfl)))))

/-- The iterations that go round again. -/
inductive Advance : WalkState → WalkState → Prop
  | beginNode {s : WalkState} {n : Nat} (inRange : blob.TagInRange s.offset)
      (tag : blob.tagAt mem s.offset = fdtBeginNode)
      (name : FirstNul mem (blob.p + s.offset + fdtTagsize) n) :
      Advance s
        ⟨fdtTagalign (s.offset + fdtTagsize + (BitVec.ofNat 32 n + 1)),
          (fdtStreq mem nodeName.bytes
            (blob.p + s.offset + fdtTagsize)).val⟩
  | prop {s : WalkState} (inRange : blob.TagInRange s.offset)
      (tag : blob.tagAt mem s.offset = fdtProp)
      (passed : s.isNodeFound = true → blob.PropInRange mem s.offset ∧
        ¬ propName.At mem (blob.nameAt mem s.offset)) :
      Advance s
        ⟨fdtTagalign (s.offset + fdtTagsize +
            (FdtProperty.size - fdtTagsize + blob.lenAt mem s.offset)),
          s.isNodeFound⟩
  | endNode {s : WalkState} (inRange : blob.TagInRange s.offset)
      (tag : blob.tagAt mem s.offset = fdtEndNode) :
      Advance s ⟨fdtTagalign (s.offset + fdtTagsize), false⟩
  | nop {s : WalkState} (inRange : blob.TagInRange s.offset)
      (tag : blob.tagAt mem s.offset = fdtNop) :
      Advance s ⟨fdtTagalign (s.offset + fdtTagsize), s.isNodeFound⟩

/-- The iterations that leave the loop, with what they return. -/
inductive Leave : WalkState → Option PropResult → Prop
  | outOfRange {s : WalkState} (outside : ¬ blob.TagInRange s.offset) :
      Leave s (some .null)
  | endTag {s : WalkState} (inRange : blob.TagInRange s.offset)
      (tag : blob.tagAt mem s.offset = fdtEnd) : Leave s (some .null)
  | unknown {s : WalkState} (inRange : blob.TagInRange s.offset)
      (noBegin : blob.tagAt mem s.offset ≠ fdtBeginNode)
      (noProp : blob.tagAt mem s.offset ≠ fdtProp)
      (noEndNode : blob.tagAt mem s.offset ≠ fdtEndNode)
      (noNop : blob.tagAt mem s.offset ≠ fdtNop) : Leave s (some .null)
  | endlessName {s : WalkState} (inRange : blob.TagInRange s.offset)
      (tag : blob.tagAt mem s.offset = fdtBeginNode)
      (endless : ∀ n, ¬ FirstNul mem (blob.p + s.offset + fdtTagsize) n) :
      Leave s none
  | propOutOfRange {s : WalkState} (inRange : blob.TagInRange s.offset)
      (tag : blob.tagAt mem s.offset = fdtProp)
      (found : s.isNodeFound = true)
      (outside : ¬ blob.PropInRange mem s.offset) : Leave s (some .null)
  | found {s : WalkState} (inRange : blob.TagInRange s.offset)
      (tag : blob.tagAt mem s.offset = fdtProp)
      (found : s.isNodeFound = true)
      (inside : blob.PropInRange mem s.offset)
      (name : propName.At mem (blob.nameAt mem s.offset)) :
      Leave s (some ⟨blob.valueAt s.offset, blob.lenAt mem s.offset⟩)

theorem fdtGetPropBody_cases (s : WalkState) :
    (∃ u, Advance mem blob nodeName propName s u ∧
      (fdtGetPropBody mem blob nodeName propName s).val = .inl u) ∨
    (∃ r, Leave mem blob propName s r ∧
      (fdtGetPropBody mem blob nodeName propName s).val = .inr r) := by
  rw [fdtGetPropBody_val]
  by_cases inRange : blob.TagInRange s.offset
  · rw [if_neg (not_not_intro inRange)]
    split_ifs with endTag beginTag propTag endNodeTag nopTag
    · exact .inr ⟨_, .endTag inRange endTag, rfl⟩
    · rw [beginNodeToken_val]
      cases length : (fdtStrlen mem (blob.p + s.offset + fdtTagsize)).val with
      | none =>
          refine .inr ⟨_, .endlessName inRange beginTag ?_, rfl⟩
          intro n first
          rw [first.strlen] at length
          cases length
      | some len =>
          obtain ⟨n, name, rfl⟩ := fdtStrlen_val_eq_some.mp length
          exact .inl ⟨_, .beginNode inRange beginTag name, rfl⟩
    · rw [propToken_val]
      split_ifs with outside named
      · exact .inr ⟨_, .propOutOfRange inRange propTag outside.1 outside.2,
          rfl⟩
      · have inside : blob.PropInRange mem s.offset := by
          by_contra missing
          exact outside ⟨named.1, missing⟩
        exact .inr ⟨_, .found inRange propTag named.1 inside named.2, rfl⟩
      · refine .inl ⟨_, .prop inRange propTag ?_, rfl⟩
        intro found
        exact ⟨by_contra fun missing => outside ⟨found, missing⟩,
          fun name => named ⟨found, name⟩⟩
    · exact .inl ⟨_, .endNode inRange endNodeTag, rfl⟩
    · exact .inl ⟨_, .nop inRange nopTag, rfl⟩
    · exact .inr ⟨_, .unknown inRange beginTag propTag endNodeTag nopTag, rfl⟩
  · rw [if_pos inRange]
    exact .inr ⟨_, .outOfRange inRange, rfl⟩

variable {mem blob nodeName propName}

theorem advance_of_step {s u : WalkState}
    (step : (fdtGetPropBody mem blob nodeName propName).Step s u) :
    Advance mem blob nodeName propName s u := by
  rcases fdtGetPropBody_cases mem blob nodeName propName s with
    ⟨v, advance, next⟩ | ⟨r, _, exit⟩
  · cases step.symm.trans next
    exact advance
  · cases step.symm.trans exit

theorem leave_of_exit {s : WalkState} {r : Option PropResult}
    (exit : (fdtGetPropBody mem blob nodeName propName s).val = .inr r) :
    Leave mem blob propName s r := by
  rcases fdtGetPropBody_cases mem blob nodeName propName s with
    ⟨v, _, next⟩ | ⟨q, leave, leaves⟩
  · cases next.symm.trans exit
  · cases leaves.symm.trans exit
    exact leave

theorem Advance.step {s u : WalkState}
    (advance : Advance mem blob nodeName propName s u) :
    (fdtGetPropBody mem blob nodeName propName).Step s u := by
  unfold Loop.Step
  cases advance with
  | beginNode inRange tag name =>
      rw [fdtGetPropBody_val, if_neg (not_not_intro inRange), tag,
        if_neg (by decide), if_pos rfl, beginNodeToken_val, name.strlen]
  | prop inRange tag passed =>
      rw [fdtGetPropBody_val, if_neg (not_not_intro inRange), tag,
        if_neg (by decide), if_neg (by decide), if_pos rfl, propToken_val,
        if_neg fun outside => outside.2 (passed outside.1).1,
        if_neg fun named => (passed named.1).2 named.2]
  | endNode inRange tag =>
      rw [fdtGetPropBody_val, if_neg (not_not_intro inRange), tag,
        if_neg (by decide), if_neg (by decide), if_neg (by decide),
        if_pos rfl]
  | nop inRange tag =>
      rw [fdtGetPropBody_val, if_neg (not_not_intro inRange), tag,
        if_neg (by decide), if_neg (by decide), if_neg (by decide),
        if_neg (by decide), if_pos rfl]

theorem Leave.exit {s : WalkState} {r : Option PropResult}
    (leave : Leave mem blob propName s r) :
    (fdtGetPropBody mem blob nodeName propName s).val = .inr r := by
  cases leave with
  | outOfRange outside => rw [fdtGetPropBody_val, if_pos outside]
  | endTag inRange tag =>
      rw [fdtGetPropBody_val, if_neg (not_not_intro inRange), if_pos tag]
  | unknown inRange noBegin noProp noEndNode noNop =>
      rw [fdtGetPropBody_val, if_neg (not_not_intro inRange), if_neg noBegin,
        if_neg noProp, if_neg noEndNode, if_neg noNop, ite_self]
  | endlessName inRange tag endless =>
      rw [fdtGetPropBody_val, if_neg (not_not_intro inRange), tag,
        if_neg (by decide), if_pos rfl, beginNodeToken_val]
      cases length : (fdtStrlen mem (blob.p + s.offset + fdtTagsize)).val with
      | none => rfl
      | some len =>
          obtain ⟨n, first, _⟩ := fdtStrlen_val_eq_some.mp length
          exact absurd first (endless n)
  | propOutOfRange inRange tag found outside =>
      rw [fdtGetPropBody_val, if_neg (not_not_intro inRange), tag,
        if_neg (by decide), if_neg (by decide), if_pos rfl, propToken_val,
        if_pos ⟨found, outside⟩]
  | found inRange tag found inside name =>
      rw [fdtGetPropBody_val, if_neg (not_not_intro inRange), tag,
        if_neg (by decide), if_neg (by decide), if_pos rfl, propToken_val,
        if_neg fun outside => outside.2 inside, if_pos ⟨found, name⟩]

end Iteration

/-! The whole walk. -/

theorem card_walkState : Fintype.card WalkState = 2 ^ 33 := by
  rw [Fintype.ofEquiv_card, Fintype.card_prod, card_word, Fintype.card_bool]
  rfl

section Lookup

variable {mem : Memory} {data : Word} {nodeName propName : CString}

abbrev walkBody (mem : Memory) (data : Word) (nodeName propName : CString) :
    Loop Word WalkState (Option PropResult) :=
  fdtGetPropBody mem (headerBlob mem data) nodeName propName

theorem fdtGetProp_val_eq_some_iff {r : PropResult} :
    (fdtGetProp mem data nodeName propName).val = some r ↔
      (walkBody mem data nodeName propName).Exits .start (some r) := by
  rw [← Loop.run_val_eq_some_iff_exits card_walkState.le]
  simp only [fdtGetProp, Traced.val_bind, Memory.val_loadWord,
    Traced.val_pure, Option.join_eq_some_iff]
  rfl

end Lookup

end AuxLoader.Fdt
