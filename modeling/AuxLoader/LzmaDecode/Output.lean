import AuxLoader.LzmaDecode.Confined

namespace AuxLoader.LzmaDecode

open Data

/-! The output, in the memory of the decoder. -/

/-- The probabilities are not in the way of the output. -/
def Call.TableApart (call : Call) : Prop :=
  ∀ a, Word.Within call.outStream call.outSize.toNat a →
    ¬ Word.Within call.probs (2 * call.properties.numProbs) a

section Output

variable {call : Call} {s t : RangeDecoder} {out : List Byte}

theorem rcReadByte_mem {byte : Option Byte}
    (reads : rcReadByte call s = (byte, t)) : t.mem = s.mem := by
  unfold rcReadByte at reads
  split at reads
  next => cases reads; rfl
  next => cases reads; rfl

theorem rcNormalize_mem {result : Option Unit}
    (normalizes : rcNormalize call s = (result, t)) : t.mem = s.mem := by
  unfold rcNormalize at normalizes
  split at normalizes
  next =>
    split at normalizes
    next u reads => cases normalizes; exact rcReadByte_mem reads
    next byte u reads =>
      have same := rcReadByte_mem reads
      cases normalizes
      exact same
  next => cases normalizes; rfl

/-- A bit leaves its probability changed. -/
theorem answer_bit_mem {prob : Nat} {b : Bool}
    (answers : normalized call (rcDecide call prob) s = (some b, t)) :
    ∃ value, t.mem = s.mem.setHalf (call.probAddress prob) value := by
  unfold normalized at answers
  split at answers
  next => cases answers
  next u normalizes =>
    unfold rcDecide at answers
    simp only at answers
    rw [← rcNormalize_mem normalizes]
    split at answers
    next => cases answers; exact ⟨_, rfl⟩
    next => cases answers; exact ⟨_, rfl⟩

theorem answer_directBit_mem {b : Bool}
    (answers : normalized call rcDirect s = (some b, t)) : t.mem = s.mem := by
  unfold normalized at answers
  split at answers
  next => cases answers
  next u normalizes =>
    unfold rcDirect at answers
    simp only at answers
    rw [← rcNormalize_mem normalizes]
    split at answers
    next => cases answers; rfl
    next => cases answers; rfl

/-- The output is in memory. -/
structure Shows (call : Call) (out : List Byte) (mem : Memory) : Prop where
  fits : out.length ≤ call.outSize.toNat
  holds : mem.Holds call.outStream out

theorem within_output {i : Nat} (inside : i < call.outSize.toNat) :
    Word.Within call.outStream call.outSize.toNat
      (call.outStream + BitVec.ofNat 32 i) := by
  have top := call.outSize.isLt
  unfold Word.Within
  bv_omega

theorem Shows.congr {mem now : Memory} (shows : Shows call out mem)
    (same : ∀ a, Word.Within call.outStream call.outSize.toNat a →
      now a = mem a) : Shows call out now where
  fits := shows.fits
  holds := by
    rw [Memory.holds_iff]
    intro i bound
    have fits := shows.fits
    rw [same _ (within_output (by omega))]
    exact Memory.holds_iff.mp shows.holds i bound

theorem Shows.setHalf {mem : Memory} (shows : Shows call out mem)
    (apart : call.TableApart) {prob : Nat}
    (inside : prob < call.properties.numProbs) (value : BitVec 16) :
    Shows call out (mem.setHalf (call.probAddress prob) value) :=
  shows.congr fun a output => mem.setHalf_outside value
    fun near => apart a output (within_table inside near)

theorem Shows.load {mem : Memory} (shows : Shows call out mem) {index : Word}
    (before : index.toNat < out.length) :
    out[index.toNat]? = some (mem (call.outStream + index)) := by
  have held := Memory.holds_iff.mp shows.holds index.toNat before
  rw [BitVec.ofNat_toNat, BitVec.setWidth_eq] at held
  rw [held, List.getElem?_eq_getElem before]

theorem Shows.store {mem : Memory} (shows : Shows call out mem) {index : Word}
    (here : index.toNat = out.length) (room : out.length < call.outSize.toNat)
    (byte : Byte) :
    Shows call (out ++ [byte])
      (mem.setByte (call.outStream + index) byte) where
  fits := by
    rw [List.length_append]
    exact room
  holds := by
    have place : BitVec.ofNat 32 out.length = index := by
      rw [← here, BitVec.ofNat_toNat, BitVec.setWidth_eq]
    rw [Memory.holds_append, place, Memory.holds_cons]
    refine ⟨?_, mem.setByte_same _ _, trivial⟩
    rw [Memory.holds_iff]
    intro i bound
    rw [mem.setByte_other byte (by bv_omega)]
    exact Memory.holds_iff.mp shows.holds i bound

end Output

end AuxLoader.LzmaDecode
