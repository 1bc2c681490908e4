import Mathlib.Data.Nat.Digits.Lemmas
import AuxLoader.Printf.Number

namespace AuxLoader.Printf

open Data

/-! What `my_dec2str` writes, wherever its pointer stands. -/

namespace Cursor

def shift (s : Cursor) (k : Int) : Cursor :=
  ⟨s.buf.shift k, s.p - k, s.itersCount⟩

end Cursor

theorem wr2p_shift (upcase : Bool) (tmp : Word) (s : Cursor) (k : Int) :
    (wr2p upcase tmp s).shift k = wr2p upcase tmp (s.shift k) := by
  simp only [Cursor.shift, wr2p, Buffer.shift_put, Cursor.mk.injEq, true_and,
    and_true]
  omega

theorem digitLoop_shift (round : Word → Word × Word) (upcase : Bool)
    (fuel : Nat) (A : Word) (s : Cursor) (k : Int) :
    (digitLoop round upcase fuel A s).map (·.shift k) =
      digitLoop round upcase fuel A (s.shift k) := by
  induction fuel generalizing A s with
  | zero => rfl
  | succ fuel ih =>
      rw [digitLoop, digitLoop]
      split
      next => rw [ih, wr2p_shift]
      next => rfl

theorem myDec2str_shift (buf : Buffer Byte) (p : Int) (A : Word)
    (upcase : Bool) :
    (myDec2str buf p A upcase).map (·.shift p) =
      myDec2str (buf.shift p) 0 A upcase := by
  have start : (⟨buf, p, 0⟩ : Cursor).shift p = ⟨buf.shift p, 0, 0⟩ := by
    rw [Cursor.shift, Int.sub_self]
  rw [myDec2str, myDec2str]
  split
  next => rw [Option.map_some, wr2p_shift, start]
  next =>
    split
    next => rw [Option.map_some, wr2p_shift, wr2p_shift, start]
    next => rw [digitLoop_shift, start]

/-- The digits, least significant first, with one zero for zero. -/
def decimalDigits (n : Nat) : List Nat :=
  if n = 0 then [0] else Nat.digits 10 n

theorem glyph_decimal (upcase : Bool) {d : Nat} (digit : d < 10) :
    glyph upcase d.digitChar = chr '0' + BitVec.ofNat 8 d := by
  have table : ∀ (upcase : Bool) (d : Fin 10),
      glyph upcase d.val.digitChar = chr '0' + BitVec.ofNat 8 d.val := by
    decide
  exact table upcase ⟨d, digit⟩

theorem lowDigits_ten (upcase : Bool) (n : Nat) :
    lowDigits 10 upcase n =
      (Nat.digits 10 n).map fun d => chr '0' + BitVec.ofNat 8 d := by
  induction n using Nat.strong_induction_on with
  | _ n ih =>
      by_cases none : n = 0
      · rw [none]
        rfl
      · rw [lowDigits_of_pos (by decide) none,
          Nat.digits_def' (by decide) (Nat.pos_of_ne_zero none),
          List.map_cons, ih (n / 10) (Nat.div_lt_self (by omega) (by decide)),
          glyph_decimal upcase (Nat.mod_lt n (by decide))]

theorem numeral_ten (upcase : Bool) (n : Nat) :
    (numeral 10 upcase n).reverse =
      (decimalDigits n).map fun d => chr '0' + BitVec.ofNat 8 d := by
  rw [decimalDigits]
  split
  next none =>
    rw [none, numeral_of_lt (by decide), List.map_singleton,
      glyph_decimal upcase (by decide)]
    rfl
  next some =>
    have low := lowDigits_ten upcase n
    rwa [lowDigits, if_neg some] at low

theorem length_decimalDigits (A : Word) :
    (decimalDigits A.toNat).length ≤ 10 := by
  rw [decimalDigits]
  split
  next => exact Nat.le_of_lt (by decide)
  next =>
    rw [Nat.digits_length_le_iff (by decide)]
    exact A.isLt.trans (by decide)

/-- The estimate is at most one too small for every word, so the correction
makes it exact in every round. -/
theorem myDec2str_exact (upcase : Bool) :
    (∀ A : Word,
      ((decQuotient A).toNat = A.toNat / 10 ∨
        (decQuotient A).toNat + 1 = A.toNat / 10) ∧
      (decRound A).1.toNat = A.toNat % 10 ∧
      (decRound A).2.toNat = A.toNat / 10) ∧
    ∀ (A : Word) (buf : Buffer Byte) (p : Int),
      ∃ s, myDec2str buf p A upcase = some s ∧
        s.itersCount = (decimalDigits A.toNat).length ∧
        (decimalDigits A.toNat).length ≤ 10 ∧
        (s.buf.shift p).slice (decimalDigits A.toNat).length =
          (decimalDigits A.toNat).map (fun d => chr '0' + BitVec.ofNat 8 d) ∧
        ∀ i, i ∈ s.buf.written ↔
          i ∈ buf.written ∨
            p ≤ i ∧ i < p + (decimalDigits A.toNat).length := by
  constructor
  · intro A
    exact ⟨decQuotient_near A, decRound_eq A⟩
  · intro A buf p
    obtain ⟨t, returned, emitted⟩ := myDec2str_emits (buf.shift p) A upcase
    rw [← myDec2str_shift] at returned
    obtain ⟨s, done, rfl⟩ := Option.map_eq_some_iff.mp returned
    rw [numeral_ten] at emitted
    have count := emitted.itersCount
    have slice := emitted.prints.slice
    have wrote := emitted.prints.wrote
    rw [List.length_map] at count slice wrote
    refine ⟨s, done, count, length_decimalDigits A, slice, fun i => ?_⟩
    have here := wrote (i - p)
    rw [Cursor.shift, Buffer.mem_written_shift, Buffer.mem_written_shift,
      show p + (i - p) = i by omega] at here
    rw [here]
    exact or_congr Iff.rfl (by omega)

end AuxLoader.Printf
