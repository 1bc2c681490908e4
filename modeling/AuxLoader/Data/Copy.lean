import AuxLoader.Data.Memory

namespace AuxLoader.Data

/-! Copies that go upwards unit by unit, each unit read before it is written. -/

/-- `now` is `mem` after the first `count` bytes at `src` have been copied to
`dst`. The byte with index `i` is read when the bytes below `start i` have been
written. -/
structure ForwardCopy (mem now : Memory) (dst src : Word) (start : Nat → Nat)
    (count : Nat) : Prop where
  outside : ∀ a, ¬ Word.Within dst count a → now a = mem a
  inside : ∀ i, i < count → now (dst + BitVec.ofNat 32 i) =
    if Word.Within dst (start i) (src + BitVec.ofNat 32 i) then
      now (src + BitVec.ofNat 32 i)
    else mem (src + BitVec.ofNat 32 i)

/-- Every byte that is read after it has been overwritten was overwritten with
its own value. -/
def Repeats (mem : Memory) (dst src : Word) (start : Nat → Nat)
    (count : Nat) : Prop :=
  ∀ i, i < count → ∀ j, j < start i →
    dst + BitVec.ofNat 32 j = src + BitVec.ofNat 32 i →
    mem (src + BitVec.ofNat 32 j) = mem (src + BitVec.ofNat 32 i)

section Copying

variable {mem now later : Memory} {dst src : Word} {start : Nat → Nat}
  {count size : Nat}

theorem ForwardCopy.zero : ForwardCopy mem mem dst src start 0 where
  outside _ _ := rfl
  inside i bound := absurd bound (Nat.not_lt_zero i)

theorem ForwardCopy.unit (copy : ForwardCopy mem now dst src start count)
    (room : count + size ≤ 2 ^ 32)
    (frame : ∀ a, ¬ Word.Within (dst + BitVec.ofNat 32 count) size a →
      later a = now a)
    (moved : ∀ j, j < size →
      later (dst + BitVec.ofNat 32 (count + j)) =
        now (src + BitVec.ofNat 32 (count + j)))
    (starts : ∀ j, j < size → start (count + j) = count)
    (before : ∀ i, i < count → start i ≤ count) :
    ForwardCopy mem later dst src start (count + size) := by
  have beyond (a : Word) : Word.Within (dst + BitVec.ofNat 32 count) size a ↔
      count ≤ (a - dst).toNat ∧ (a - dst).toNat < count + size :=
    Word.within_add_iff room
  have kept (a : Word) (earlier : Word.Within dst count a) :
      later a = now a := by
    apply frame
    rw [beyond]
    unfold Word.Within at earlier
    omega
  constructor
  · intro a out
    unfold Word.Within at out
    rw [frame a (by rw [beyond]; omega), copy.outside a (by
      unfold Word.Within
      omega)]
  · intro i bound
    by_cases earlier : i < count
    · have index : (dst + BitVec.ofNat 32 i - dst).toNat = i := by
        bv_omega
      rw [kept _ (by unfold Word.Within; omega), copy.inside i earlier]
      by_cases overwritten :
          Word.Within dst (start i) (src + BitVec.ofNat 32 i)
      · have reach := before i earlier
        rw [if_pos overwritten, if_pos overwritten, kept]
        unfold Word.Within at overwritten ⊢
        omega
      · rw [if_neg overwritten, if_neg overwritten]
    · obtain ⟨j, rfl⟩ := Nat.exists_eq_add_of_le (Nat.le_of_not_lt earlier)
      have inUnit : j < size := by omega
      rw [moved j inUnit, starts j inUnit]
      by_cases overwritten :
          Word.Within dst count (src + BitVec.ofNat 32 (count + j))
      · rw [if_pos overwritten, kept _ overwritten]
      · rw [if_neg overwritten, copy.outside _ overwritten]

/-- The copy is the original exactly when what it overwrites repeats. -/
theorem ForwardCopy.intact_iff (copy : ForwardCopy mem now dst src start count)
    (starts : ∀ i, start i ≤ i) :
    (∀ i, i < count →
        now (dst + BitVec.ofNat 32 i) = mem (src + BitVec.ofNat 32 i)) ↔
      Repeats mem dst src start count := by
  constructor
  · intro intact i bound j early same
    have order := starts i
    have inside := copy.inside i bound
    have overwritten :
        Word.Within dst (start i) (src + BitVec.ofNat 32 i) := by
      rw [← same]
      unfold Word.Within
      bv_omega
    rw [if_pos overwritten, intact i bound, ← same,
      intact j (by omega)] at inside
    rw [← inside, same]
  · intro repeating i
    induction i using Nat.strong_induction_on with
    | _ i ih =>
        intro bound
        rw [copy.inside i bound]
        by_cases overwritten :
            Word.Within dst (start i) (src + BitVec.ofNat 32 i)
        · have order := starts i
          have place := Word.add_ofNat_toNat_sub dst
            (src + BitVec.ofNat 32 i)
          have early : (src + BitVec.ofNat 32 i - dst).toNat < start i :=
            overwritten
          rw [if_pos overwritten, ← repeating i bound _ early place]
          conv_lhs => rw [← place]
          exact ih _ (by omega) (by omega)
        · rw [if_neg overwritten]

/-- Going upwards, only a target above the source is read after it has been
written, and only if it is close. -/
theorem repeats_of_apart (starts : ∀ i, start i ≤ i)
    (noWrap : src.toNat + count ≤ 2 ^ 32)
    (apart : dst ≤ src ∨ src.toNat + count ≤ dst.toNat) :
    Repeats mem dst src start count := by
  intro i bound j early same
  have order := starts i
  have sums : (dst.toNat + j) % 2 ^ 32 = (src.toNat + i) % 2 ^ 32 := by
    have := congrArg BitVec.toNat same
    simpa only [BitVec.toNat_add, BitVec.toNat_ofNat, Nat.add_mod_mod]
      using this
  rw [Nat.mod_eq_of_lt (show src.toNat + i < 2 ^ 32 by omega)] at sums
  have top := dst.isLt
  rcases apart with below | above
  · have := BitVec.le_def.mp below
    omega
  · omega

end Copying

end AuxLoader.Data
