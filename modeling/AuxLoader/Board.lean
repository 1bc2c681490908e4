import AuxLoader.Data.Memory

namespace AuxLoader

open Data

/-! The byte swap of `board.c`. -/

private def ntohlRound (state : Word × Word) : Word × Word :=
  ((state.1 ||| (state.2 &&& 0xFF)) <<< 8, state.2 >>> 8)

/-- Three rounds take a byte each; the last byte is taken after them. -/
def ntohl (d : Word) : Word :=
  let state := ntohlRound^[3] (0, d)
  state.1 ||| (state.2 &&& 0xFF)

theorem ntohl_pack (b₀ b₁ b₂ b₃ : Byte) :
    ntohl (.pack b₀ b₁ b₂ b₃) = .pack b₃ b₂ b₁ b₀ := by
  have start : (0 : Word) = .pack 0 0 0 0 := by decide
  simp only [ntohl, ntohlRound, Function.iterate_succ, Function.iterate_zero,
    Function.comp, id, start, Word.pack_or_low, Word.pack_shiftLeft,
    Word.pack_shiftRight]

@[simp] theorem ntohl_word (mem : Memory) (address : Word) :
    ntohl (mem.word address) = mem.beWord address :=
  ntohl_pack _ _ _ _

end AuxLoader
