import Mathlib.Data.List.TakeWhile
import AuxLoader.Data.Memory

namespace AuxLoader.Data

/-! NUL-terminated strings. -/

/-- The characters of a C string, without the terminator. -/
structure CString where
  bytes : List Byte
  noNul : ∀ b ∈ bytes, b ≠ 0
  deriving DecidableEq

namespace CString

/-- The C literal with the given characters, up to a NUL among them. -/
def lit (text : String) : CString where
  bytes := (text.toList.map fun c => BitVec.ofNat 8 c.toNat).takeWhile (· ≠ 0)
  noNul b member := by simpa using List.mem_takeWhile_imp member

@[ext] theorem ext {first second : CString}
    (same : first.bytes = second.bytes) : first = second := by
  cases first; cases second; cases same; rfl

def stored (s : CString) : List Byte := s.bytes ++ [0]

@[simp] theorem length_stored (s : CString) :
    s.stored.length = s.bytes.length + 1 := by simp [stored]

/-- The terminated string stands in memory at the address. -/
def At (s : CString) (mem : Memory) (address : Word) : Prop :=
  mem.Holds address s.stored

instance (s : CString) (mem : Memory) (address : Word) :
    Decidable (s.At mem address) :=
  inferInstanceAs (Decidable (mem.Holds address s.stored))

theorem At.nul {s : CString} {mem : Memory} {address : Word}
    (stands : s.At mem address) :
    mem (address + BitVec.ofNat 32 s.bytes.length) = 0 := by
  have last := Memory.holds_iff.mp stands s.bytes.length (by simp)
  simpa [stored] using last

theorem At.ne_zero {s : CString} {mem : Memory} {address : Word}
    (stands : s.At mem address) {i : Nat} (bound : i < s.bytes.length) :
    mem (address + BitVec.ofNat 32 i) ≠ 0 := by
  have char := Memory.holds_iff.mp stands i (by simp; omega)
  simp only [stored, List.getElem_append_left bound] at char
  rw [char]
  exact s.noNul _ (List.getElem_mem bound)

theorem getElem?_ne_zero (s : CString) (i : Nat) : s.bytes[i]? ≠ some 0 :=
  fun nul => s.noNul 0 (List.mem_of_getElem? nul) rfl

theorem At.unique {first second : CString} {mem : Memory} {address : Word}
    (left : first.At mem address) (right : second.At mem address) :
    first = second := by
  obtain ⟨xs, hxs⟩ := first
  obtain ⟨ys, hys⟩ := second
  simp only [At, stored] at left right
  refine CString.ext ?_
  induction xs generalizing ys address with
  | nil =>
      cases ys with
      | nil => rfl
      | cons y ys =>
          have nul : mem address = 0 := left.1
          have head : mem address = y := right.1
          exact absurd (head.symm.trans nul) (hys y (by simp))
  | cons x xs ih =>
      have head : mem address = x := left.1
      cases ys with
      | nil => exact absurd (head.symm.trans right.1) (hxs x (by simp))
      | cons y ys =>
          have tails := ih (fun b hb => hxs b (by simp [hb])) left.2 ys
            (fun b hb => hys b (by simp [hb])) right.2
          have heads : x = y := head.symm.trans right.1
          exact List.cons_eq_cons.mpr ⟨heads, tails⟩

end CString

end AuxLoader.Data
