import Mathlib.Tactic.Ring

namespace AuxLoader.Data

/-! Numbers as bits. -/

/-- The last `count` bits of a number, most significant first. -/
def bitsDown : Nat → Nat → List Bool
  | 0, _ => []
  | count + 1, value =>
      (value / 2 ^ count % 2 == 1) :: bitsDown count (value % 2 ^ count)

/-- The last `count` bits of a number, least significant first. -/
def bitsUp : Nat → Nat → List Bool
  | 0, _ => []
  | count + 1, value => (value % 2 == 1) :: bitsUp count (value / 2)

theorem bitsDown_cons {count value : Nat} (small : value < 2 ^ count)
    (b : Bool) :
    bitsDown (count + 1) (b.toNat * 2 ^ count + value) =
      b :: bitsDown count value := by
  have top : (b.toNat * 2 ^ count + value) / 2 ^ count = b.toNat := by
    rw [Nat.mul_comm, Nat.mul_add_div (Nat.two_pow_pos count),
      Nat.div_eq_of_lt small, Nat.add_zero]
  have rest : (b.toNat * 2 ^ count + value) % 2 ^ count = value := by
    rw [Nat.mul_comm, Nat.mul_add_mod, Nat.mod_eq_of_lt small]
  rw [bitsDown, top, rest]
  cases b <;> rfl

theorem bitsUp_cons (count value : Nat) (b : Bool) :
    bitsUp (count + 1) (b.toNat + 2 * value) = b :: bitsUp count value := by
  have rest : (b.toNat + 2 * value) / 2 = value := by
    have := b.toNat_lt
    omega
  have last : (b.toNat + 2 * value) % 2 = b.toNat := by
    have := b.toNat_lt
    omega
  rw [bitsUp, rest, last]
  cases b <;> rfl

/-- A number of `count + 1` bits is a bit and a number of `count` bits. -/
theorem exists_top_bit {count value : Nat} (small : value < 2 ^ (count + 1)) :
    ∃ (b : Bool) (rest : Nat), rest < 2 ^ count ∧
      value = b.toNat * 2 ^ count + rest := by
  rw [Nat.pow_succ] at small
  by_cases top : value < 2 ^ count
  · exact ⟨false, value, top, by simp⟩
  · exact ⟨true, value - 2 ^ count, by omega, by rw [Bool.toNat_true]; omega⟩

theorem exists_low_bit {count value : Nat} (small : value < 2 ^ (count + 1)) :
    ∃ (b : Bool) (rest : Nat), rest < 2 ^ count ∧
      value = b.toNat + 2 * rest := by
  rw [Nat.pow_succ] at small
  refine ⟨value % 2 == 1, value / 2, by omega, ?_⟩
  rcases Nat.mod_two_eq_zero_or_one value with even | odd
  · simp only [even]
    change value = 0 + _
    omega
  · simp only [odd]
    change value = 1 + _
    omega

/-- A number that `count` bits leave below the power, from its top bit on. -/
theorem top_bit_lt {count rest : Nat} (small : rest < 2 ^ count) (b : Bool) :
    b.toNat * 2 ^ count + rest < 2 ^ (count + 1) := by
  have part : b.toNat * 2 ^ count ≤ 1 * 2 ^ count :=
    Nat.mul_le_mul_right _ (Nat.le_of_lt_succ b.toNat_lt)
  rw [Nat.pow_succ]
  omega

theorem low_bit_lt {count rest : Nat} (small : rest < 2 ^ count) (b : Bool) :
    b.toNat + 2 * rest < 2 ^ (count + 1) := by
  have := b.toNat_lt
  rw [Nat.pow_succ]
  omega

end AuxLoader.Data
