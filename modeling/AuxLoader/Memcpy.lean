import AuxLoader.Data.Copy
import AuxLoader.Data.Loop

namespace AuxLoader

open Data

/-! The copy loop of `loader.c`. -/

structure CopyState where
  src : Word
  dst : Word
  mem : Memory

namespace CopyState

def word (s : CopyState) : CopyState :=
  ⟨s.src + 4, s.dst + 4, s.mem.setWord s.dst (s.mem.word s.src)⟩

def byte (s : CopyState) : CopyState :=
  ⟨s.src + 1, s.dst + 1, s.mem.setByte s.dst (s.mem s.src)⟩

end CopyState

def copyWordsBody (stop : Word) : Loop Word CopyState CopyState := fun s => do
  if s.src + 4 ≤ stop then
    let w ← s.mem.loadWord s.src
    return .inl ⟨s.src + 4, s.dst + 4, s.mem.setWord s.dst w⟩
  else
    return .inr s

def copyBytesBody (stop : Word) : Loop Word CopyState CopyState := fun s => do
  if s.src < stop then
    let b ← s.mem.loadByte s.src
    return .inl ⟨s.src + 1, s.dst + 1, s.mem.setByte s.dst b⟩
  else
    return .inr s

/-- `none` when the word loop goes round the address space for ever. -/
def myMemcpy (mem : Memory) (dst src n : Word) :
    Traced Word (Option Memory) := do
  let stop := src + n
  match ← (copyWordsBody stop).run (2 ^ 32) ⟨src, dst, mem⟩ with
  | none => return none
  | some s =>
      let rest ← (copyBytesBody stop).run (2 ^ 32) s
      return rest.map CopyState.mem

theorem copyWords_while (stop : Word) :
    (copyWordsBody stop).While (fun s => s.src + 4 ≤ stop)
      CopyState.word where
  goes s more := by
    simp only [copyWordsBody, if_pos more]
    rfl
  stops s last := by
    simp only [copyWordsBody, if_neg last]
    rfl

theorem copyBytes_while (stop : Word) :
    (copyBytesBody stop).While (fun s => s.src < stop) CopyState.byte where
  goes s more := by
    simp only [copyBytesBody, if_pos more]
    rfl
  stops s last := by
    simp only [copyBytesBody, if_neg last]
    rfl

theorem src_word_iterate (n : Nat) (s : CopyState) :
    (CopyState.word^[n] s).src = s.src + BitVec.ofNat 32 (4 * n) :=
  @Word.iterate_add_ofNat _ CopyState.word CopyState.src 4 (fun _ => rfl) n s

theorem dst_word_iterate (n : Nat) (s : CopyState) :
    (CopyState.word^[n] s).dst = s.dst + BitVec.ofNat 32 (4 * n) :=
  @Word.iterate_add_ofNat _ CopyState.word CopyState.dst 4 (fun _ => rfl) n s

theorem src_byte_iterate (n : Nat) (s : CopyState) :
    (CopyState.byte^[n] s).src = s.src + BitVec.ofNat 32 n := by
  have moved := @Word.iterate_add_ofNat _ CopyState.byte CopyState.src 1
    (fun _ => rfl) n s
  rwa [Nat.one_mul] at moved

theorem dst_byte_iterate (n : Nat) (s : CopyState) :
    (CopyState.byte^[n] s).dst = s.dst + BitVec.ofNat 32 n := by
  have moved := @Word.iterate_add_ofNat _ CopyState.byte CopyState.dst 1
    (fun _ => rfl) n s
  rwa [Nat.one_mul] at moved

/-! When the copy ends. -/

theorem copyBytes_isSome (stop : Word) (s : CopyState) :
    ((copyBytesBody stop).run (2 ^ 32) s).val.isSome := by
  rw [(copyBytes_while stop).run_val_isSome_iff]
  refine ⟨(stop - s.src).toNat, BitVec.isLt _, ?_⟩
  rw [src_byte_iterate, Word.add_ofNat_toNat_sub]
  exact BitVec.lt_irrefl stop

/-- Among the addresses that the word loop steps through there is none above
`stop + 3` if `stop` is too close to the top. -/
theorem copyWords_isSome_iff (stop : Word) (s : CopyState) :
    ((copyWordsBody stop).run (2 ^ 32) s).val.isSome ↔
      stop.toNat + 4 < 2 ^ 32 + s.src.toNat % 4 := by
  rw [(copyWords_while stop).run_val_isSome_iff]
  simp only [src_word_iterate]
  have ahead (n : Nat) : (s.src + BitVec.ofNat 32 (4 * n) + 4).toNat =
      (s.src.toNat + 4 * n + 4) % 2 ^ 32 := by
    rw [show (4 : Word) = BitVec.ofNat 32 4 from rfl,
      Word.add_ofNat_add_ofNat, BitVec.toNat_add, BitVec.toNat_ofNat,
      Nat.add_mod_mod, Nat.add_assoc]
  have small := s.src.isLt
  constructor
  · intro ⟨n, _, last⟩
    rw [BitVec.not_le, BitVec.lt_def, ahead] at last
    omega
  · intro low
    refine ⟨(2 ^ 32 + s.src.toNat % 4 - s.src.toNat) / 4 + 2 ^ 30 - 2, ?_, ?_⟩
    · omega
    · rw [BitVec.not_le, BitVec.lt_def, ahead]
      omega

theorem myMemcpy_isSome_iff (mem : Memory) (dst src n : Word) :
    (myMemcpy mem dst src n).val.isSome ↔
      (src + n).toNat + 4 < 2 ^ 32 + src.toNat % 4 := by
  rw [← copyWords_isSome_iff (src + n) ⟨src, dst, mem⟩]
  simp only [myMemcpy, Traced.val_bind]
  cases ((copyWordsBody (src + n)).run (2 ^ 32) ⟨src, dst, mem⟩).val with
  | none => simp
  | some s =>
      have rest := copyBytes_isSome (src + n) s
      simp only [Traced.val_bind, Traced.val_pure, Option.isSome_map, rest,
        Option.isSome_some]

/-! What the copy does to memory. -/

/-- Where the unit of byte `i` starts: a word as long as there are words. -/
def copyStart (n i : Nat) : Nat :=
  if i < 4 * (n / 4) then 4 * (i / 4) else i

theorem copyStart_le (n i : Nat) : copyStart n i ≤ i := by
  unfold copyStart
  split <;> omega

theorem copyWords_copies (s : CopyState) {n k : Nat} (bound : k ≤ n / 4)
    (small : n ≤ 2 ^ 32) :
    ForwardCopy s.mem (CopyState.word^[k] s).mem s.dst s.src (copyStart n)
      (4 * k) := by
  induction k with
  | zero => exact .zero
  | succ k ih =>
      have prior := ih (by omega)
      rw [Function.iterate_succ_apply', CopyState.word, dst_word_iterate,
        src_word_iterate]
      refine prior.unit (by omega)
        (fun a outside => Memory.setWord_outside _ _ outside) ?_ ?_ ?_
      · intro j inWord
        rw [← Word.add_ofNat_add_ofNat, ← Word.add_ofNat_add_ofNat]
        exact Memory.setWord_word_inside _ _ _ inWord
      · intro j inWord
        rw [copyStart, if_pos (by omega)]
        omega
      · intro i earlier
        exact (copyStart_le n i).trans (Nat.le_of_lt earlier)

theorem copyBytes_copies {mem : Memory} {dst src : Word} (s : CopyState)
    {n k : Nat} (bound : 4 * (n / 4) + k ≤ n) (small : n ≤ 2 ^ 32)
    (srcAt : s.src = src + BitVec.ofNat 32 (4 * (n / 4)))
    (dstAt : s.dst = dst + BitVec.ofNat 32 (4 * (n / 4)))
    (words : ForwardCopy mem s.mem dst src (copyStart n) (4 * (n / 4))) :
    ForwardCopy mem (CopyState.byte^[k] s).mem dst src (copyStart n)
      (4 * (n / 4) + k) := by
  induction k with
  | zero => exact words
  | succ k ih =>
      have prior := ih (by omega)
      rw [Function.iterate_succ_apply', CopyState.byte, dst_byte_iterate,
        src_byte_iterate, srcAt, dstAt, Word.add_ofNat_add_ofNat,
        Word.add_ofNat_add_ofNat]
      refine prior.unit (show 4 * (n / 4) + k + 1 ≤ 2 ^ 32 by omega)
        (fun a outside => ?_) ?_ ?_ ?_
      · apply Memory.setByte_other
        rintro rfl
        apply outside
        simp [Word.Within]
      · intro j inUnit
        cases Nat.lt_one_iff.mp inUnit
        exact Memory.setByte_same _ _ _
      · intro j inUnit
        rw [copyStart, if_neg (by omega)]
        omega
      · intro i earlier
        exact (copyStart_le n i).trans (Nat.le_of_lt earlier)

theorem copyWords_count {src n : Word} {k : Nat}
    (noWrap : src.toNat + n.toNat < 2 ^ 32)
    (ends : src.toNat + n.toNat + 4 < 2 ^ 32 + src.toNat % 4)
    (more : ∀ j, j < k → src + BitVec.ofNat 32 (4 * j) + 4 ≤ src + n)
    (last : ¬ src + BitVec.ofNat 32 (4 * k) + 4 ≤ src + n) :
    k = n.toNat / 4 := by
  refine Loop.rounds_eq (fun j inside => ?_) more last
  rw [show (4 : Word) = BitVec.ofNat 32 4 from rfl,
    Word.add_ofNat_add_ofNat, BitVec.le_def,
    Word.toNat_add_ofNat (by omega), BitVec.toNat_add,
    Nat.mod_eq_of_lt noWrap]
  omega

theorem copyBytes_count {src n : Word} {k : Nat}
    (noWrap : src.toNat + n.toNat < 2 ^ 32)
    (more : ∀ j, j < k →
      src + BitVec.ofNat 32 (4 * (n.toNat / 4)) + BitVec.ofNat 32 j < src + n)
    (last : ¬ src + BitVec.ofNat 32 (4 * (n.toNat / 4)) + BitVec.ofNat 32 k <
      src + n) :
    k = n.toNat % 4 := by
  refine Loop.rounds_eq (fun j inside => ?_) more last
  rw [Word.add_ofNat_add_ofNat, BitVec.lt_def,
    Word.toNat_add_ofNat (by omega), BitVec.toNat_add,
    Nat.mod_eq_of_lt noWrap]
  omega

/-- A copy that ends, of a source that does not wrap, copies `n` bytes. -/
theorem myMemcpy_copies {mem now : Memory} {dst src n : Word}
    (noWrap : src.toNat + n.toNat < 2 ^ 32)
    (returned : (myMemcpy mem dst src n).val = some now) :
    ForwardCopy mem now dst src (copyStart n.toNat) n.toNat := by
  have ends := (myMemcpy_isSome_iff mem dst src n).mp (by simp [returned])
  rw [BitVec.toNat_add, Nat.mod_eq_of_lt noWrap] at ends
  rw [myMemcpy, Traced.val_bind] at returned
  cases first :
      ((copyWordsBody (src + n)).run (2 ^ 32) ⟨src, dst, mem⟩).val with
  | none =>
      rw [first] at returned
      cases returned
  | some s =>
      rw [first, Traced.val_bind] at returned
      obtain ⟨u, second, rfl⟩ := Option.map_eq_some_iff.mp returned
      obtain ⟨k, _, more, last, rfl⟩ :=
        (copyWords_while (src + n)).run_val_eq_some_iff.mp first
      simp only [src_word_iterate] at more last
      have words := copyWords_count noWrap ends more last
      subst words
      obtain ⟨l, _, moreBytes, lastByte, rfl⟩ :=
        (copyBytes_while (src + n)).run_val_eq_some_iff.mp second
      simp only [src_byte_iterate, src_word_iterate] at moreBytes lastByte
      have bytes := copyBytes_count noWrap moreBytes lastByte
      subst bytes
      have small : n.toNat ≤ 2 ^ 32 := by omega
      have copied := copyBytes_copies
        (CopyState.word^[n.toNat / 4] ⟨src, dst, mem⟩)
        (show 4 * (n.toNat / 4) + n.toNat % 4 ≤ n.toNat by omega) small
        (src_word_iterate _ _) (dst_word_iterate _ _)
        (copyWords_copies ⟨src, dst, mem⟩ (Nat.le_refl _) small)
      rwa [Nat.div_add_mod] at copied

/-! The copy as a whole, for ranges that an upward copy can serve. -/

structure UpwardRanges (dst src n : Word) : Prop where
  source : src.toNat + n.toNat < 2 ^ 32
  target : dst.toNat + n.toNat < 2 ^ 32
  apart : dst ≤ src ∨ src.toNat + n.toNat ≤ dst.toNat

/-- The copy ends with the old source bytes in the target, and nothing else
changed. -/
def CopiesExactly (mem : Memory) (dst src n : Word) : Prop :=
  ∃ now, (myMemcpy mem dst src n).val = some now ∧
    (∀ i, i < n.toNat →
      now (dst + BitVec.ofNat 32 i) = mem (src + BitVec.ofNat 32 i)) ∧
    ∀ a, ¬ Word.Within dst n.toNat a → now a = mem a

/-- With the end less than a word below the top, `src + 4 <= end` holds for
ever. -/
theorem copiesExactly_iff (mem : Memory) {dst src n : Word}
    (ranges : UpwardRanges dst src n) :
    CopiesExactly mem dst src n ↔
      src.toNat + n.toNat + 4 < 2 ^ 32 + src.toNat % 4 := by
  have ends := myMemcpy_isSome_iff mem dst src n
  rw [BitVec.toNat_add, Nat.mod_eq_of_lt ranges.source] at ends
  rw [← ends]
  constructor
  · intro ⟨now, returned, _⟩
    rw [returned, Option.isSome_some]
  · intro returns
    obtain ⟨now, returned⟩ := Option.isSome_iff_exists.mp returns
    have copy := myMemcpy_copies ranges.source returned
    have repeating : Repeats mem dst src (copyStart n.toNat) n.toNat :=
      repeats_of_apart (copyStart_le n.toNat) (Nat.le_of_lt ranges.source)
        ranges.apart
    exact ⟨now, returned, (copy.intact_iff (copyStart_le n.toNat)).mpr repeating,
      copy.outside⟩

/-- A copy downwards by one byte, of a word and three more bytes. -/
theorem copiesExactly_down :
    CopiesExactly (fun a => a.setWidth 8) 0x80000000 0x80000001 7 :=
  (copiesExactly_iff _ ⟨by decide, by decide, .inl (by decide)⟩).mpr (by decide)

/-- The payload that a legacy header of `ih_size` 0x7b7fafbc announces behind an
image of 32 bytes. -/
theorem copyToTop_endless :
    UpwardRanges 0x80208000 0x84805040 0x7b7fafbc ∧
      ¬ CopiesExactly (fun _ => 0) 0x80208000 0x84805040 0x7b7fafbc := by
  refine ⟨⟨by decide, by decide, .inl (by decide)⟩, fun copies => ?_⟩
  obtain ⟨now, returned, _⟩ := copies
  have ends :=
    (myMemcpy_isSome_iff (fun _ => 0) 0x80208000 0x84805040 0x7b7fafbc).mp
      (by rw [returned, Option.isSome_some])
  revert ends
  decide

end AuxLoader
