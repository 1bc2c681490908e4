import AuxLoader.Fit.Unpack

namespace AuxLoader

open Data Fit

/-! Whether the LZMA front end stays inside its input. -/

/-- The decoder takes its input from `inStream[0 .. inSize)` only. -/
def LzmaDecoder.ReadsWithin (decode : LzmaDecoder) : Prop :=
  ∀ mem properties probs inStream inSize outStream outSize,
    (decode mem properties probs inStream inSize outStream outSize).ReadsIn
      (Word.Within inStream inSize.toNat)

section Reads

variable {allowed : Word → Prop}

theorem lzmaGetBytes_readsIn_iff (mem : Memory) (count : Nat)
    (input : LzmaInput) :
    (lzmaGetBytes mem count input).ReadsIn allowed ↔
      ∀ i, i < count → allowed (input.lzmaData + BitVec.ofNat 32 i) := by
  induction count generalizing input with
  | zero => simp [lzmaGetBytes]
  | succ count ih =>
      have onward (i : Nat) : input.lzmaData + 1 + BitVec.ofNat 32 i =
          input.lzmaData + BitVec.ofNat 32 (i + 1) := by
        rw [Nat.add_comm]
        exact Word.add_ofNat_add_ofNat input.lzmaData 1 i
      simp only [lzmaGetBytes, lzmaGetByte, Traced.readsIn_bind,
        Traced.readsIn_pure, Traced.val_bind, Traced.val_pure, ih, onward,
        and_true]
      rw [Nat.forall_lt_succ_left]
      simp [Traced.ReadsIn]

theorem lzmaGetByte_readsIn_iff (mem : Memory) (input : LzmaInput) :
    (lzmaGetByte mem input).ReadsIn allowed ↔ allowed input.lzmaData := by
  simp [lzmaGetByte, Traced.ReadsIn]

/-- The three steps read 13 bytes, one after another, whatever the length. -/
theorem lzmaInitProps_readsIn_iff (mem : Memory) (input : LzmaInput) :
    (lzmaInitProps mem input).ReadsIn allowed ↔
      ∀ i, i < 13 → allowed (input.lzmaData + BitVec.ofNat 32 i) := by
  have one : (1 : Word) = BitVec.ofNat 32 1 := rfl
  simp only [lzmaInitProps, Traced.readsIn_bind, Traced.readsIn_pure,
    lzmaGetBytes_val, lzmaGetBytes_readsIn_iff, lzmaGetByte_readsIn_iff,
    lzmaPropertiesSize]
  simp only [lzmaGetByte, Traced.val_bind, Traced.val_pure, one,
    Word.add_ofNat_add_ofNat, Nat.reduceAdd]
  constructor
  · rintro ⟨props, byte₀, byte₁, byte₂, byte₃, upper, _⟩ i bound
    by_cases low : i < 5
    · exact props i low
    · by_cases high : 9 ≤ i
      · obtain ⟨j, rfl⟩ := Nat.exists_eq_add_of_le high
        exact upper j (by omega)
      · have size : i = 5 ∨ i = 6 ∨ i = 7 ∨ i = 8 := by omega
        rcases size with rfl | rfl | rfl | rfl
        · exact byte₀
        · exact byte₁
        · exact byte₂
        · exact byte₃
  · intro all
    exact ⟨fun i low => all i (by omega), all 5 (by decide), all 6 (by decide),
      all 7 (by decide), all 8 (by decide), fun i low => all (9 + i) (by omega),
      trivial⟩

theorem lzmaDecompress_readsIn_iff (decode : LzmaDecoder) (mem : Memory)
    (workspace : Word) (properties : CLzmaProperties) (input : LzmaInput)
    (outStream lzmaOutsize : Word) :
    (lzmaDecompress decode mem workspace properties input outStream
        lzmaOutsize).ReadsIn allowed ↔
      (decode mem properties workspace input.lzmaData input.lzmaDatasize
          outStream lzmaOutsize).ReadsIn allowed ∧
        ((decode mem properties workspace input.lzmaData input.lzmaDatasize
            outStream lzmaOutsize).val.ret ≠ lzmaResultOk →
          ∀ i, i < 16 → allowed (input.lzmaData +
            (decode mem properties workspace input.lzmaData input.lzmaDatasize
              outStream lzmaOutsize).val.inSizeProcessed +
            BitVec.ofNat 32 i)) := by
  rw [lzmaDecompress, Traced.readsIn_bind, Traced.readsIn_ite]
  simp only [Traced.readsIn_bind, Traced.readsIn_pure, lzmaGetBytes_readsIn_iff,
    and_true, implies_true]

end Reads

section Inside

variable (decode : LzmaDecoder) (mem : Memory)
  (workspace kernelLa data n : Word)

/-- The stage reaches the decoder, and the decoder fails. -/
def DecodeFails : Prop :=
  (mem data).toNat < 225 ∧
    (lzmaCall decode mem workspace kernelLa data n).ret ≠ lzmaResultOk

/-- The front end reads `data[0 .. n)` only, and hands the decoder what is left
of it behind the 13 bytes of the header. -/
structure StaysInside : Prop where
  props : (lzmaInitProps mem ⟨data, n⟩).ReadsIn (Word.Within data n.toNat)
  handsOver : ∀ properties,
    (lzmaInitProps mem ⟨data, n⟩).val.1 = .ok properties →
      (lzmaInitProps mem ⟨data, n⟩).val.2.2.lzmaData = data + 13 ∧
        (lzmaInitProps mem ⟨data, n⟩).val.2.2.lzmaDatasize.toNat + 13 =
          n.toNat
  stage : (lzmaGogogo decode mem workspace kernelLa data n).ReadsIn
    (Word.Within data n.toNat)

variable {decode mem workspace kernelLa data n}

theorem lzmaInitProps_inside_iff :
    (lzmaInitProps mem ⟨data, n⟩).ReadsIn (Word.Within data n.toNat) ↔
      13 ≤ n.toNat := by
  rw [lzmaInitProps_readsIn_iff, Word.range_within_iff n.isLt]
  simp

theorem lzmaGogogo_readsIn_iff {allowed : Word → Prop} :
    (lzmaGogogo decode mem workspace kernelLa data n).ReadsIn allowed ↔
      (lzmaInitProps mem ⟨data, n⟩).ReadsIn allowed ∧
        ((mem data).toNat < 225 →
          (decode mem (propertiesOf (mem data)) workspace (data + 13) (n - 13)
            kernelLa (mem.word (data + 5))).ReadsIn allowed) ∧
        (DecodeFails decode mem workspace kernelLa data n →
          ∀ i, i < 16 → allowed (data + 13 +
            (lzmaCall decode mem workspace kernelLa data n).inSizeProcessed +
            BitVec.ofNat 32 i)) := by
  unfold DecodeFails
  rw [lzmaGogogo, Traced.readsIn_bind, lzmaInitProps_val]
  by_cases bad : (mem data).toNat ≥ 225
  · have rejected : ¬ (mem data).toNat < 225 := by omega
    simp only [if_pos bad, rejected, false_and, false_implies, and_true,
      Traced.readsIn_pure]
  · have accepted : (mem data).toNat < 225 := by omega
    simp only [if_neg bad, accepted, true_and, true_implies,
      Traced.readsIn_bind, lzmaDecompress_readsIn_iff, Traced.readsIn_ite,
      Traced.readsIn_pure, implies_true, and_true]
    rfl

/-- A header that is not wholly there sends the length below zero, and the dump
after a failed decode takes 16 bytes from where the decoder stopped. -/
theorem staysInside_iff (reads : decode.ReadsWithin) :
    StaysInside decode mem workspace kernelLa data n ↔
      13 ≤ n.toNat ∧
        (DecodeFails decode mem workspace kernelLa data n →
          (13 + (lzmaCall decode mem workspace kernelLa data
            n).inSizeProcessed).toNat + 16 ≤ n.toNat) := by
  have dump (processed : Word) :
      (∀ i, i < 16 → Word.Within data n.toNat
          (data + 13 + processed + BitVec.ofNat 32 i)) ↔
        (13 + processed).toNat + 16 ≤ n.toNat := by
    have place : data + 13 + processed - data = 13 + processed := by
      rw [BitVec.add_assoc, BitVec.add_comm, BitVec.add_sub_cancel]
    rw [Word.range_within_iff n.isLt, place]
    omega
  constructor
  · intro inside
    have long := lzmaInitProps_inside_iff.mp inside.props
    obtain ⟨_, _, failed⟩ := lzmaGogogo_readsIn_iff.mp inside.stage
    exact ⟨long, fun fails => (dump _).mp (failed fails)⟩
  · rintro ⟨long, failed⟩
    have props := (@lzmaInitProps_inside_iff mem data n).mpr long
    have rest : (n - 13).toNat + 13 = n.toNat := by
      have small : (13 : Word) ≤ n := long
      rw [BitVec.toNat_sub_of_le small]
      exact Nat.sub_add_cancel long
    refine ⟨props, ?_, lzmaGogogo_readsIn_iff.mpr ⟨props, ?_, ?_⟩⟩
    · intro properties _
      rw [lzmaInitProps_val]
      exact ⟨rfl, rest⟩
    · intro _ a read
      have inStream : Word.Within (data + 13) (n - 13).toNat a :=
        reads _ _ _ _ _ _ _ a read
      rw [show data + 13 = data + BitVec.ofNat 32 13 from rfl,
        Word.within_add_iff (by omega)] at inStream
      unfold Word.Within
      omega
    · exact fun fails => (dump _).mpr (failed fails)

end Inside

/-- A stream of 29 bytes is long enough for the dump of a decoder that stops at
once. -/
theorem staysInside_iff_shortest :
    StaysInside rejectAll (fun _ => 0) 0x84806000 0x80208000 0x848050b4
      29 :=
  (staysInside_iff fun _ _ _ _ _ _ _ _ read => absurd read (by
    simp [rejectAll])).mpr ⟨by decide, fun _ => by decide⟩

/-- The handler lets a kernel of 4 bytes through, of which 13 are read. -/
theorem corruptImage_readsBeyond :
    (linkedPlatform 252 (by decide)).Accepts corruptMachine corruptImage ∧
      corruptImage.kernelLoad < corruptImage.kernel.ptr ∧
      ¬ StaysInside rejectAll
        (cachedMem (linkedPlatform 252 (by decide)) corruptImage
          corruptMachine)
        (linkedPlatform 252 (by decide)).workspace corruptImage.kernelLoad
        corruptImage.kernel.ptr corruptImage.kernel.len := by
  refine ⟨by decide +kernel, by decide, fun inside => ?_⟩
  have long := lzmaInitProps_inside_iff.mp inside.props
  exact absurd long (by decide)

end AuxLoader
