import AuxLoader.Fdt.Termination

namespace AuxLoader.Fdt

open Data

/-! What a result of the walk stands for, told by the tokens it has visited. -/

section History

variable (mem : Memory) (data : Word) (nodeName propName : CString)

def Visits (n : Nat) (s : WalkState) : Prop :=
  (walkBody mem data nodeName propName).stateAt .start n = some s

def OpensNode (s : WalkState) : Prop :=
  (headerBlob mem data).tagAt mem s.offset = fdtBeginNode ∧
    nodeName.At mem ((headerBlob mem data).p + s.offset + fdtTagsize)

def StaysInNode (s : WalkState) : Prop :=
  (headerBlob mem data).tagAt mem s.offset ≠ fdtBeginNode ∧
    (headerBlob mem data).tagAt mem s.offset ≠ fdtEndNode

/-- The last node tag before token `n` opens a node of the given name. -/
def InNode (n : Nat) : Prop :=
  ∃ m s, m < n ∧ Visits mem data nodeName propName m s ∧
    OpensNode mem data nodeName s ∧
    ∀ k u, m < k → k < n → Visits mem data nodeName propName k u →
      StaysInNode mem data u

/-- Token `n` is a property of the given name in a node of the given name. -/
structure Matches (n : Nat) (s : WalkState) : Prop where
  visits : Visits mem data nodeName propName n s
  tag : (headerBlob mem data).tagAt mem s.offset = fdtProp
  name : propName.At mem ((headerBlob mem data).nameAt mem s.offset)
  inNode : InNode mem data nodeName propName n

/-- The matching token that the lookup returns: the first one, with its
property header and its name in range. -/
structure Selects (s : WalkState) : Prop where
  tagInRange : (headerBlob mem data).TagInRange s.offset
  propInRange : (headerBlob mem data).PropInRange mem s.offset
  first : ∃ n, Matches mem data nodeName propName n s ∧
    ∀ m u, m < n → ¬ Matches mem data nodeName propName m u

end History

section Runs

variable {mem : Memory} {data : Word} {nodeName propName : CString}

theorem Visits.unique {n : Nat} {s u : WalkState}
    (first : Visits mem data nodeName propName n s)
    (second : Visits mem data nodeName propName n u) : s = u :=
  Option.some.inj (first.symm.trans second)

theorem Visits.pred {n : Nat} {u : WalkState}
    (visits : Visits mem data nodeName propName (n + 1) u) :
    ∃ s, Visits mem data nodeName propName n s ∧
      Advance mem (headerBlob mem data) nodeName propName s u := by
  obtain ⟨s, before, step⟩ := Loop.stateAt_succ_eq_some.mp visits
  exact ⟨s, before, advance_of_step step⟩

theorem Visits.advance {m n : Nat} {s u : WalkState}
    (visits : Visits mem data nodeName propName m s)
    (later : Visits mem data nodeName propName n u) (order : m < n) :
    ∃ t, Advance mem (headerBlob mem data) nodeName propName s t := by
  obtain ⟨k, rfl⟩ := Nat.exists_eq_add_of_lt order
  have next : (walkBody mem data nodeName propName).stateAt s (k + 1) =
      some u := by
    rw [← Loop.stateAt_add_of_eq visits]
    exact later
  obtain ⟨t, step, _⟩ := Loop.exists_step_of_stateAt_succ next
  exact ⟨t, advance_of_step step⟩

theorem inNode_succ_iff {n : Nat} {s : WalkState}
    (visits : Visits mem data nodeName propName n s) :
    InNode mem data nodeName propName (n + 1) ↔
      OpensNode mem data nodeName s ∨
        StaysInNode mem data s ∧ InNode mem data nodeName propName n := by
  constructor
  · intro ⟨m, u, before, visited, opens, since⟩
    rcases Nat.lt_succ_iff_lt_or_eq.mp before with earlier | rfl
    · exact .inr ⟨since n s earlier n.lt_succ_self visits, m, u, earlier,
        visited, opens, fun k t after bound => since k t after (by omega)⟩
    · rw [visits.unique visited]
      exact .inl opens
  · rintro (opens | ⟨stays, m, u, before, visited, opens, since⟩)
    · exact ⟨n, s, n.lt_succ_self, visits, opens,
        fun k t after bound => absurd bound (by omega)⟩
    · refine ⟨m, u, by omega, visited, opens, fun k t after bound seen => ?_⟩
      rcases Nat.lt_succ_iff_lt_or_eq.mp bound with earlier | rfl
      · exact since k t after earlier seen
      · rw [← visits.unique seen]
        exact stays

/-- The flag tells the name of the node entered last. -/
theorem isNodeFound_iff_inNode {n : Nat} {s : WalkState}
    (visits : Visits mem data nodeName propName n s) :
    s.isNodeFound = true ↔ InNode mem data nodeName propName n := by
  induction n generalizing s with
  | zero =>
      cases visits
      refine iff_of_false (by decide) ?_
      intro ⟨m, _, before, _⟩
      exact absurd before (Nat.not_lt_zero m)
  | succ n ih =>
      obtain ⟨t, before, advance⟩ := visits.pred
      have flag := ih before
      rw [inNode_succ_iff before]
      cases advance with
      | beginNode _ tag _ =>
          rw [fdtStreq_val_iff]
          simp [OpensNode, StaysInNode, tag]
      | prop _ tag _ =>
          have opens : ¬ OpensNode mem data nodeName t := by
            simp [OpensNode, tag, fdtProp, fdtBeginNode]
          have stays : StaysInNode mem data t := by
            simp [StaysInNode, tag, fdtProp, fdtBeginNode, fdtEndNode]
          simp [opens, stays, flag]
      | endNode _ tag =>
          have opens : ¬ OpensNode mem data nodeName t := by
            simp [OpensNode, tag, fdtEndNode, fdtBeginNode]
          have stays : ¬ StaysInNode mem data t := by
            simp [StaysInNode, tag]
          simp [opens, stays]
      | nop _ tag =>
          have opens : ¬ OpensNode mem data nodeName t := by
            simp [OpensNode, tag, fdtNop, fdtBeginNode]
          have stays : StaysInNode mem data t := by
            simp [StaysInNode, tag, fdtNop, fdtBeginNode, fdtEndNode]
          simp [opens, stays, flag]

theorem Matches.not_advance {n : Nat} {s u : WalkState}
    (isMatch : Matches mem data nodeName propName n s) :
    ¬ Advance mem (headerBlob mem data) nodeName propName s u := by
  intro advance
  have found := (isNodeFound_iff_inNode isMatch.visits).mpr isMatch.inNode
  cases advance with
  | beginNode _ tag _ => cases isMatch.tag.symm.trans tag
  | prop _ _ passed => exact (passed found).2 isMatch.name
  | endNode _ tag => cases isMatch.tag.symm.trans tag
  | nop _ tag => cases isMatch.tag.symm.trans tag

theorem Matches.isFirst {n m : Nat} {s u : WalkState}
    (visits : Visits mem data nodeName propName n s) (order : m < n) :
    ¬ Matches mem data nodeName propName m u := by
  intro isMatch
  obtain ⟨t, advance⟩ := isMatch.visits.advance visits order
  exact isMatch.not_advance advance

theorem Selects.val {s : WalkState}
    (selects : Selects mem data nodeName propName s) :
    (fdtGetProp mem data nodeName propName).val =
      some ⟨(headerBlob mem data).valueAt s.offset,
        (headerBlob mem data).lenAt mem s.offset⟩ := by
  obtain ⟨n, isMatch, _⟩ := selects.first
  have found := (isNodeFound_iff_inNode isMatch.visits).mpr isMatch.inNode
  have leave := Leave.found selects.tagInRange isMatch.tag found
    selects.propInRange isMatch.name
  rw [fdtGetProp_val_eq_some_iff, Loop.exits_iff_stateAt]
  exact ⟨n, s, isMatch.visits, leave.exit⟩

theorem fdtGetProp_null_or_selects {r : PropResult}
    (returns : (fdtGetProp mem data nodeName propName).val = some r) :
    r = .null ∨ ∃ s, Selects mem data nodeName propName s := by
  rw [fdtGetProp_val_eq_some_iff, Loop.exits_iff_stateAt] at returns
  obtain ⟨n, s, visits, exit⟩ := returns
  cases leave_of_exit exit with
  | outOfRange => exact .inl rfl
  | endTag => exact .inl rfl
  | unknown => exact .inl rfl
  | propOutOfRange => exact .inl rfl
  | found inRange tag found inside name =>
      have inNode := (isNodeFound_iff_inNode visits).mp found
      exact .inr ⟨s, inRange, inside, n, ⟨visits, tag, name, inNode⟩,
        fun m u order => Matches.isFirst visits order⟩

end Runs

section Sound

variable (mem : Memory) (data : Word) (nodeName propName : CString)

/-- What a caller takes a returned pointer and length to mean. -/
structure SoundResult (r : PropResult) : Prop where
  found : r.ptr ≠ 0 → ∃ n s, Matches mem data nodeName propName n s ∧
    r.ptr - FdtProperty.size = (headerBlob mem data).p + s.offset ∧
    r.len = (headerBlob mem data).lenAt mem s.offset ∧
    ∀ m u, m < n → ¬ Matches mem data nodeName propName m u
  null : r.ptr = 0 → r.len = 0

/-- A returned result is sound exactly when a selected token whose value would
stand at address 0 has no value at all. -/
theorem soundResult_iff {r : PropResult}
    (returns : (fdtGetProp mem data nodeName propName).val = some r) :
    SoundResult mem data nodeName propName r ↔
      ∀ s, Selects mem data nodeName propName s →
        (headerBlob mem data).p + s.offset = 0xfffffff4 →
        (headerBlob mem data).lenAt mem s.offset = 0 := by
  have atTop (s : WalkState) :
      (headerBlob mem data).valueAt s.offset = 0 ↔
        (headerBlob mem data).p + s.offset = 0xfffffff4 := by
    simp only [Blob.valueAt, FdtProperty.size]
    constructor <;> intro _ <;> bv_omega
  constructor
  · intro sound s selects top
    have value := selects.val
    rw [returns] at value
    cases value
    exact sound.null ((atTop s).mpr top)
  · intro topEmpty
    rcases fdtGetProp_null_or_selects returns with rfl | ⟨s, selects⟩
    · exact ⟨fun nonNull => absurd rfl nonNull, fun _ => rfl⟩
    · have value := selects.val
      rw [returns] at value
      cases value
      obtain ⟨n, isMatch, first⟩ := selects.first
      refine ⟨fun _ => ⟨n, s, isMatch, ?_, rfl, first⟩, fun null => ?_⟩
      · exact BitVec.add_sub_cancel ..
      · exact topEmpty s selects ((atTop s).mp null)

variable {mem data} in
theorem ne_top_of_tagInRange {offset : Word}
    (below : data.toNat + (mem.beWord (data + FdtHeader.totalsize)).toNat + 12 ≤
      2 ^ 32) (inRange : (headerBlob mem data).TagInRange offset) :
    (headerBlob mem data).p + offset ≠ 0xfffffff4 := by
  intro top
  have stop : (headerBlob mem data).t.toNat =
      data.toNat + (mem.beWord (data + FdtHeader.totalsize)).toNat := by
    simp only [headerBlob, ntohl_word]
    bv_omega
  unfold Blob.TagInRange at inRange
  rw [top, BitVec.lt_def, stop] at inRange
  revert inRange
  rw [show (0xfffffff4 + fdtTagsize : Word).toNat = 2 ^ 32 - 8 from rfl]
  omega

/-- A result of a lookup is sound if the blob ends far enough below the top of
the address space for a property header to fit in. -/
theorem fdtGetProp_sound
    (below : data.toNat + (mem.beWord (data + FdtHeader.totalsize)).toNat + 12 ≤
      2 ^ 32) (r : PropResult)
    (returns : (fdtGetProp mem data nodeName propName).val = some r) :
    SoundResult mem data nodeName propName r := by
  rw [soundResult_iff mem data nodeName propName returns]
  intro s selects top
  exact absurd top (ne_top_of_tagInRange below selects.tagInRange)

end Sound

theorem fdtGetProp_sound_loadNode :
    SoundResult loadNodeMemory 0x84805000 (.lit "kernel@1") (.lit "load")
      ⟨0x8480504c, 4⟩ :=
  fdtGetProp_sound loadNodeMemory 0x84805000 (.lit "kernel@1") (.lit "load")
    (by decide +kernel) ⟨0x8480504c, 4⟩ (by decide +kernel)

end AuxLoader.Fdt
