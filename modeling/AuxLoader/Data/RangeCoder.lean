import Mathlib.Data.Nat.Basic
import Mathlib.Tactic.Ring

namespace AuxLoader.Data.RangeCoder

/-! Range coding: a sequence of choices narrows an interval of numbers, and any
number in it, written out in digits, tells the choices again. -/

/-- The last `count` digits of a number, most significant first. -/
def digits (radix : Nat) : Nat → Nat → List Nat
  | 0, _ => []
  | count + 1, value =>
      value / radix ^ count % radix :: digits radix count value

section Digits

variable {radix : Nat}

@[simp] theorem length_digits (count value : Nat) :
    (digits radix count value).length = count := by
  induction count with
  | zero => rfl
  | succ count ih => rw [digits, List.length_cons, ih]

theorem lt_of_mem_digits (positive : 0 < radix) {count value digit : Nat}
    (member : digit ∈ digits radix count value) : digit < radix := by
  induction count with
  | zero => cases member
  | succ count ih =>
      rcases List.mem_cons.mp member with rfl | later
      · exact Nat.mod_lt _ positive
      · exact ih later

/-- Multiples of a higher power leave the digits as they are. -/
theorem digits_add_mul (positive : 0 < radix) {count high : Nat}
    (above : count ≤ high) (value times : Nat) :
    digits radix count (value + times * radix ^ high) =
      digits radix count value := by
  induction count with
  | zero => rfl
  | succ count ih =>
      obtain ⟨more, rfl⟩ := Nat.exists_eq_add_of_lt above
      have split : times * radix ^ (count + more + 1) =
          radix ^ count * (times * radix ^ more * radix) := by ring
      rw [digits, digits, ih (by omega), split,
        Nat.add_mul_div_left _ _ (Nat.pow_pos positive),
        Nat.add_mul_mod_self_right]

theorem digits_add (first second value : Nat) :
    digits radix (first + second) value =
      digits radix first (value / radix ^ second) ++
        digits radix second value := by
  induction first with
  | zero => rw [Nat.zero_add, digits, List.nil_append]
  | succ first ih =>
      rw [Nat.succ_add, digits, digits, ih, List.cons_append,
        Nat.div_div_eq_div_mul, ← Nat.pow_add, Nat.add_comm second first]

end Digits

/-- How a choice divides a range: the lower part is for `false`, and both parts
lie in the range. -/
structure Split where
  low : Nat → Nat
  high : Nat → Nat
  fits : ∀ range, low range + high range ≤ range

def Split.part (split : Split) (choice : Bool) (range : Nat) : Nat :=
  if choice then split.high range else split.low range

/-- Where the part of a choice starts. -/
def Split.offset (split : Split) (choice : Bool) (range : Nat) : Nat :=
  if choice then split.low range else 0

/-- The numbers from `start` on, with so many digits behind those of the range
that they lie in. -/
structure Interval where
  count : Nat
  start : Nat
  width : Nat

namespace Interval

/-- The digit before the others is one of those behind the range. -/
def shift (interval : Interval) : Interval :=
  { interval with count := interval.count + 1 }

def raise (radix offset : Nat) (interval : Interval) : Interval :=
  { interval with
    start := interval.start + offset * radix ^ interval.count }

/-- The interval lies in the range. -/
def Inside (radix range : Nat) (interval : Interval) : Prop :=
  interval.start + interval.width ≤ range * radix ^ interval.count

/-- The code, followed by the input up to the tail, is a number of the
interval. -/
def Spells (radix : Nat) (interval : Interval) (code : Nat)
    (input tail : List Nat) : Prop :=
  ∃ value, interval.start ≤ value ∧
    value < interval.start + interval.width ∧
    code = value / radix ^ interval.count ∧
    input = digits radix interval.count value ++ tail

section Spells

variable {radix range code : Nat} {interval : Interval}
  {input tail : List Nat}

theorem Spells.code_lt (spells : interval.Spells radix code input tail)
    (inside : interval.Inside radix range) : code < range := by
  obtain ⟨value, _, below, rfl, _⟩ := spells
  exact Nat.div_lt_of_lt_mul (by
    rw [Nat.mul_comm]
    exact Nat.lt_of_lt_of_le below inside)

theorem Spells.unshift
    (spells : interval.shift.Spells radix code input tail) :
    ∃ digit rest, input = digit :: rest ∧
      interval.Spells radix (code * radix + digit) rest tail := by
  obtain ⟨value, above, below, rfl, written⟩ := spells
  refine ⟨_, digits radix interval.count value ++ tail, written, value,
    above, below, ?_, rfl⟩
  rw [shift, Nat.pow_succ, ← Nat.div_div_eq_div_mul, Nat.mul_comm]
  exact Nat.div_add_mod _ radix

theorem Spells.lower (positive : 0 < radix) {offset : Nat}
    (spells : (interval.raise radix offset).Spells radix code input tail) :
    offset ≤ code ∧ interval.Spells radix (code - offset) input tail := by
  obtain ⟨value, above, below, rfl, written⟩ := spells
  obtain ⟨rest, rfl⟩ := Nat.exists_eq_add_of_le
    (Nat.le_trans (Nat.le_add_left _ _) above)
  simp only [raise] at above below written ⊢
  have quotient : (offset * radix ^ interval.count + rest) /
      radix ^ interval.count = offset + rest / radix ^ interval.count := by
    rw [Nat.mul_comm, Nat.mul_add_div (Nat.pow_pos positive)]
  rw [quotient, Nat.add_sub_cancel_left]
  rw [Nat.add_comm, digits_add_mul positive (Nat.le_refl _)] at written
  exact ⟨Nat.le_add_right _ _, rest, by omega, by omega, rfl, written⟩

end Spells

end Interval

section Coder

variable (radix top : Nat)

/-- A range below `top` takes a further digit before it is divided. -/
def normalized (narrow : Nat → Interval) (range : Nat) : Interval :=
  if range < top then (narrow (range * radix)).shift else narrow range

/-- What is left of a range after the choices, the range being wide enough for
the first of them. -/
def narrow : List (Split × Bool) → Nat → Interval
  | [], range => ⟨0, 0, range⟩
  | (split, choice) :: rest, range =>
      (normalized radix top (narrow rest)
        (split.part choice range)).raise radix (split.offset choice range)

/-- The digits stand for the choices, made from a range of `count` digits: they
are those of a number of the interval. -/
def Codes (count range : Nat) (choices : List (Split × Bool))
    (code : List Nat) : Prop :=
  let interval := normalized radix top (narrow radix top choices) range
  ∃ value, interval.start ≤ value ∧
    value < interval.start + interval.width ∧
    code = digits radix (count + interval.count) value

/-- The smallest number will do. -/
def encode (count range : Nat) (choices : List (Split × Bool)) : List Nat :=
  let interval := normalized radix top (narrow radix top choices) range
  digits radix (count + interval.count) interval.start

variable {radix top}

theorem normalized_inside {narrow : Nat → Interval}
    (inside : ∀ range, (narrow range).Inside radix range) (range : Nat) :
    (normalized radix top narrow range).Inside radix range := by
  unfold normalized
  split
  · have wide := inside (range * radix)
    rw [Interval.Inside, Nat.mul_assoc, ← Nat.pow_succ'] at wide
    exact wide
  · exact inside range

theorem narrow_inside (choices : List (Split × Bool)) (range : Nat) :
    (narrow radix top choices range).Inside radix range := by
  induction choices generalizing range with
  | nil => simp [narrow, Interval.Inside]
  | cons head rest ih =>
      obtain ⟨split, choice⟩ := head
      have part :=
        @normalized_inside radix top _ ih (split.part choice range)
      have fits : split.part choice range + split.offset choice range ≤
          range := by
        have whole := split.fits range
        cases choice
        · simp only [Split.part, Split.offset]
          simp only [Bool.false_eq_true, if_false]
          omega
        · simp only [Split.part, Split.offset, if_true]
          omega
      rw [narrow, Interval.Inside, Interval.raise]
      rw [Interval.Inside] at part
      refine Nat.le_trans ?_ (Nat.mul_le_mul_right _ fits)
      rw [Nat.add_mul]
      dsimp only
      omega

/-- Every part of a range that is wide enough keeps the width. -/
def Split.Wide (split : Split) (top floor : Nat) : Prop :=
  ∀ range, top ≤ range → ∀ choice, floor ≤ split.part choice range

theorem normalized_width_pos {narrow : Nat → Interval} {floor : Nat}
    (wide : ∀ range, top ≤ range → 0 < (narrow range).width)
    (enough : top ≤ floor * radix) {range : Nat} (above : floor ≤ range) :
    0 < (normalized radix top narrow range).width := by
  unfold normalized
  split
  · exact wide _ (Nat.le_trans enough (Nat.mul_le_mul_right _ above))
  · exact wide range (by omega)

theorem narrow_width_pos {floor : Nat} (positive : 0 < top)
    (enough : top ≤ floor * radix) {choices : List (Split × Bool)}
    (wide : ∀ choice ∈ choices, choice.1.Wide top floor) {range : Nat}
    (above : top ≤ range) :
    0 < (narrow radix top choices range).width := by
  induction choices generalizing range with
  | nil => exact Nat.lt_of_lt_of_le positive above
  | cons head rest ih =>
      have others (range : Nat) (above : top ≤ range) :
          0 < (narrow radix top rest range).width :=
        ih (fun choice member => wide choice (List.mem_cons_of_mem _ member))
          above
      exact normalized_width_pos others enough
        (wide head List.mem_cons_self range above head.2)

/-- The state of a decoder: what is left of the range, the number relative to
its start, and the input. -/
structure Decoder where
  range : Nat
  code : Nat
  input : List Nat

namespace Decoder

def normalize (radix top : Nat) (d : Decoder) : Option Decoder :=
  if d.range < top then
    match d.input with
    | [] => none
    | digit :: rest => some ⟨d.range * radix, d.code * radix + digit, rest⟩
  else some d

/-- The choice that the number tells, in a range wide enough for it. -/
def choose (split : Split) (d : Decoder) : Bool × Decoder :=
  if d.code < split.low d.range then
    (false, { d with range := split.low d.range })
  else
    (true, { d with
      range := split.high d.range, code := d.code - split.low d.range })

/-- The number of the decoder tells the choices, before the tail is reached. -/
def Holds (radix top : Nat) (choices : List (Split × Bool)) (tail : List Nat)
    (d : Decoder) : Prop :=
  (narrow radix top choices d.range).Spells radix d.code d.input tail

/-- The same before the range has been made wide enough. -/
def Pending (radix top : Nat) (choices : List (Split × Bool))
    (tail : List Nat) (d : Decoder) : Prop :=
  (normalized radix top (narrow radix top choices) d.range).Spells radix d.code
    d.input tail

variable {choices : List (Split × Bool)} {tail : List Nat} {d : Decoder}

theorem Holds.code_lt (holds : d.Holds radix top choices tail) :
    d.code < d.range :=
  Interval.Spells.code_lt holds (narrow_inside choices d.range)

theorem Pending.code_lt (pending : d.Pending radix top choices tail) :
    d.code < d.range :=
  Interval.Spells.code_lt pending (normalized_inside (narrow_inside choices) _)

theorem Pending.normalize (pending : d.Pending radix top choices tail) :
    ∃ e, d.normalize radix top = some e ∧ e.Holds radix top choices tail := by
  unfold Pending normalized at pending
  unfold Decoder.normalize
  by_cases small : d.range < top
  · rw [if_pos small] at pending ⊢
    obtain ⟨digit, rest, written, holds⟩ := pending.unshift
    rw [written]
    exact ⟨_, rfl, holds⟩
  · rw [if_neg small] at pending ⊢
    exact ⟨d, rfl, pending⟩

theorem Holds.choose (positive : 0 < radix) {split : Split} {choice : Bool}
    (holds : d.Holds radix top ((split, choice) :: choices) tail) :
    (d.choose split).1 = choice ∧
      (d.choose split).2.Pending radix top choices tail := by
  obtain ⟨above, part⟩ := holds.lower positive
  have below := part.code_lt
    (normalized_inside (narrow_inside choices) _)
  unfold Decoder.choose
  cases choice with
  | false =>
      have low : d.code < split.low d.range := below
      rw [if_pos low]
      exact ⟨rfl, part⟩
  | true =>
      have high : ¬ d.code < split.low d.range := Nat.not_lt.mpr above
      rw [if_neg high]
      exact ⟨rfl, part⟩

end Decoder

/-- When there are no choices left, a decoder that normalizes has come to the
tail. -/
theorem Decoder.Holds.input_eq {tail : List Nat} {d : Decoder}
    (holds : d.Holds radix top [] tail) : d.input = tail := by
  obtain ⟨value, _, _, _, written⟩ := holds
  exact written

theorem codes_encode {count range : Nat} {choices : List (Split × Bool)}
    (wide : 0 <
      (normalized radix top (narrow radix top choices) range).width) :
    Codes radix top count range choices
      (encode radix top count range choices) :=
  ⟨_, Nat.le_refl _, Nat.lt_add_of_pos_right wide, rfl⟩

/-- A decoder that takes the first `count` digits as its code is ready to tell
the choices. -/
theorem Codes.pending {count range : Nat} {choices : List (Split × Bool)}
    {code : List Nat} (codes : Codes radix top count range choices code)
    (tail : List Nat) :
    ∃ number input, code ++ tail = digits radix count number ++ input ∧
      (⟨range, number, input⟩ : Decoder).Pending radix top choices tail := by
  obtain ⟨value, above, below, rfl⟩ := codes
  let interval := normalized radix top (narrow radix top choices) range
  refine ⟨value / radix ^ interval.count,
    digits radix interval.count value ++ tail, ?_, value, above, below, rfl,
    rfl⟩
  rw [digits_add, List.append_assoc]

end Coder

end AuxLoader.Data.RangeCoder
