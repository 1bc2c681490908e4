import AuxLoader.Data.Buffer
import AuxLoader.Data.Memory

namespace AuxLoader.Printf

open Data

/-! The number printer of `printf.c`. -/

def chr (c : Char) : Byte := BitVec.ofNat 8 c.toNat

/-- Where the next digit goes, and how many have been written. -/
structure Cursor where
  buf : Buffer Byte
  p : Int
  itersCount : Int

def wr2p (upcase : Bool) (tmp : Word) (s : Cursor) : Cursor where
  -- 48, 65 and 97 are the codes of `0`, `A` and `a`.
  buf := s.buf.put s.p <|
    if tmp ≤ 9 then (48 + tmp).setWidth 8
    else if upcase then (65 + tmp - 10).setWidth 8
    else (97 + tmp - 10).setWidth 8
  p := s.p + 1
  itersCount := s.itersCount + 1

/-- The loop `while (A > 0)`, given the digit and the rest that a round takes
from `A`; `none` when it is still running. -/
def digitLoop (round : Word → Word × Word) (upcase : Bool) :
    Nat → Word → Cursor → Option Cursor
  | 0, _, _ => none
  | fuel + 1, A, s =>
      if A > 0 then
        digitLoop round upcase fuel (round A).2 (wr2p upcase (round A).1 s)
      else some s

/-- More rounds than a word has digits. -/
def digitRounds : Nat := 33

/-- The estimate of `A / 10`. -/
def decQuotient (A : Word) : BitVec 64 :=
  let Q := (A.setWidth 64 >>> 1 + A.setWidth 64) >>> 1
  let Q := Q >>> 4 + Q
  let Q := Q >>> 8 + Q
  (Q >>> 16 + Q) >>> 3

def decRound (A : Word) : Word × Word :=
  let Q := decQuotient A
  let R := (A.setWidth 64 - 10 * Q).setWidth 32
  if R > (9 : Word) then
    ((A.setWidth 64 - 10 * (Q + 1)).setWidth 32, (Q + 1).setWidth 32)
  else (R, Q.setWidth 32)

def hexRound (A : Word) : Word × Word := (A &&& 0xF, A >>> 4)

/-- `my_dec2str` -/
def myDec2str (buf : Buffer Byte) (p : Int) (A : Word) (upcase : Bool) :
    Option Cursor :=
  if A < 10 then some (wr2p upcase A ⟨buf, p, 0⟩)
  else if A = 10 then some (wr2p upcase 1 (wr2p upcase 0 ⟨buf, p, 0⟩))
  else digitLoop decRound upcase digitRounds A ⟨buf, p, 0⟩

/-- `my_hex2str` -/
def myHex2str (buf : Buffer Byte) (p : Int) (A : Word) (upcase : Bool) :
    Option Cursor :=
  if A < 16 then some (wr2p upcase A ⟨buf, p, 0⟩)
  else digitLoop hexRound upcase digitRounds A ⟨buf, p, 0⟩

/-- The digits of `PrintNum`, least significant first, and the pointer behind
them. -/
def printDigits (buf : Buffer Byte) (u : Word) (base : Int) (upcase : Bool) :
    Option (Int × Buffer Byte) := do
  let (p, buf) ←
    if base = 10 then do
      let s ← myDec2str buf 0 u upcase
      some (0 + s.itersCount, s.buf)
    else some (0, buf)
  if base = 16 then do
    let s ← myHex2str buf p u upcase
    some (p + s.itersCount, s.buf)
  else some (p, buf)

/-- The padding of `PrintNum` and the reversal, behind `actualLength`
characters. -/
def justify (buf : Buffer Byte) (actualLength : Int) (negFlag : Bool)
    (length : Int) (ladjust : Bool) (padc : Byte) : Int × Buffer Byte :=
  let length := if length < actualLength then actualLength else length
  let padc := if ladjust then chr ' ' else padc
  let buf :=
    if negFlag ∧ ¬ ladjust ∧ padc = chr '0' then
      (buf.fill (fun _ => padc) (actualLength - 1) (length - 1)).put
        (length - 1) (chr '-')
    else buf.fill (fun _ => padc) actualLength length
  let last := if ladjust then actualLength - 1 else length - 1
  (length, buf.reverse 0 last)

def printNum (buf : Buffer Byte) (u : Word) (base : Int) (negFlag : Bool)
    (length : Int) (ladjust : Bool) (padc : Byte) (upcase : Bool) :
    Option (Int × Buffer Byte) := do
  let (p, buf) ← printDigits buf u base upcase
  let (p, buf) :=
    if negFlag then (p + 1, buf.put p (chr '-')) else (p, buf)
  return justify buf p negFlag length ladjust padc

/-! Numerals and their justification. -/

def glyph (upcase : Bool) (c : Char) : Byte :=
  chr (if upcase then c.toUpper else c)

/-- The canonical numeral. -/
def numeral (base : Nat) (upcase : Bool) (n : Nat) : List Byte :=
  (Nat.toDigits base n).map (glyph upcase)

def sign (negative : Bool) : List Byte := if negative then [chr '-'] else []

/-- Zeros stand between the sign and the digits, spaces around both. -/
def pad (left zero : Bool) (width : Int) (sign digits : List Byte) :
    List Byte :=
  let room := width.toNat - (digits.length + sign.length)
  if left then sign ++ digits ++ List.replicate room (chr ' ')
  else if zero then sign ++ List.replicate room (chr '0') ++ digits
  else List.replicate room (chr ' ') ++ sign ++ digits

/-- `now` is `buf` with the text put at the start and nothing behind it. -/
structure Prints (buf now : Buffer Byte) (text : List Byte) : Prop where
  slice : now.slice text.length = text
  wrote : Buffer.Wrote buf now text.length

variable {buf now : Buffer Byte} {text : List Byte}

theorem Prints.nil (buf : Buffer Byte) : Prints buf buf [] :=
  ⟨rfl, .refl buf⟩

theorem Prints.put (prints : Prints buf now text) (c : Byte) :
    Prints buf (now.put text.length c) (text ++ [c]) := by
  constructor
  · rw [List.length_append, List.length_singleton, Buffer.slice_put,
      prints.slice]
  · have wrote := prints.wrote.put (Nat.le_refl _) c
    rw [max_eq_right (Nat.le_succ _)] at wrote
    rw [List.length_append, List.length_singleton]
    exact wrote

/-! Digits. -/

/-- The digits have been written at the start, in the order of the text. -/
structure Emitted (buf : Buffer Byte) (s : Cursor) (text : List Byte) :
    Prop where
  p : s.p = text.length
  itersCount : s.itersCount = text.length
  prints : Prints buf s.buf text

theorem Emitted.start (buf : Buffer Byte) : Emitted buf ⟨buf, 0, 0⟩ [] :=
  ⟨rfl, rfl, .nil buf⟩

section Digits

variable {upcase : Bool} {base : Nat} {round : Word → Word × Word} {s : Cursor}

theorem Emitted.wr2p (emitted : Emitted buf s text) (upcase : Bool) {tmp : Word}
    (digit : tmp.toNat < 16) :
    Emitted buf (wr2p upcase tmp s)
      (text ++ [glyph upcase tmp.toNat.digitChar]) := by
  have table : ∀ (upcase : Bool) (d : Fin 16),
      (if BitVec.ofNat 32 d.val ≤ 9 then
          (48 + BitVec.ofNat 32 d.val).setWidth 8
        else if upcase then (65 + BitVec.ofNat 32 d.val - 10).setWidth 8
        else (97 + BitVec.ofNat 32 d.val - 10).setWidth 8) =
        glyph upcase d.val.digitChar := by decide
  have entry := table upcase ⟨tmp.toNat, digit⟩
  simp only [BitVec.ofNat_toNat, BitVec.setWidth_eq] at entry
  constructor
  · simp [Printf.wr2p, emitted.p]
  · simp [Printf.wr2p, emitted.itersCount]
  · rw [Printf.wr2p, entry, emitted.p]
    exact emitted.prints.put _

/-- A round splits the last digit off. -/
structure DigitRound (round : Word → Word × Word) (base : Nat) : Prop where
  digit : ∀ A, (round A).1.toNat = A.toNat % base
  rest : ∀ A, (round A).2.toNat = A.toNat / base

/-- The digits that are left, least significant first; none for zero. -/
def lowDigits (base : Nat) (upcase : Bool) (n : Nat) : List Byte :=
  if n = 0 then [] else (numeral base upcase n).reverse

theorem lowDigits_of_pos (two_le : 1 < base) {n : Nat} (positive : n ≠ 0) :
    lowDigits base upcase n =
      glyph upcase (n % base).digitChar ::
        lowDigits base upcase (n / base) := by
  rw [lowDigits, if_neg positive, numeral, Nat.toDigits_eq_if two_le]
  by_cases single : n < base
  · rw [if_pos single, Nat.mod_eq_of_lt single, lowDigits,
      if_pos (Nat.div_eq_of_lt single)]
    rfl
  · have more : n / base ≠ 0 :=
      (Nat.div_pos (Nat.le_of_not_lt single) (by omega)).ne'
    rw [if_neg single, lowDigits, if_neg more, numeral]
    simp

theorem digitLoop_emits (shape : DigitRound round base) (two_le : 1 < base)
    (le_sixteen : base ≤ 16) (upcase : Bool) {fuel : Nat} {A : Word}
    (enough : A.toNat < 2 ^ fuel) (emitted : Emitted buf s text) :
    ∃ t, digitLoop round upcase (fuel + 1) A s = some t ∧
      Emitted buf t (text ++ lowDigits base upcase A.toNat) := by
  induction fuel generalizing A s text with
  | zero =>
      have none : A = 0 := BitVec.eq_of_toNat_eq (by simpa using enough)
      refine ⟨s, ?_, ?_⟩
      · rw [none]
        rfl
      · rw [none]
        simpa [lowDigits] using emitted
  | succ fuel ih =>
      rw [digitLoop]
      by_cases more : A > 0
      · have positive : A.toNat ≠ 0 := by
          rw [gt_iff_lt, BitVec.lt_def] at more
          exact Nat.ne_of_gt more
        have digit := shape.digit A
        have rest := shape.rest A
        have small : (round A).1.toNat < 16 := by
          have := Nat.mod_lt A.toNat (Nat.zero_lt_of_lt two_le)
          omega
        have shrinks : (round A).2.toNat < 2 ^ fuel := by
          rw [rest]
          apply Nat.div_lt_of_lt_mul
          calc
            A.toNat < 2 * 2 ^ fuel := by rwa [pow_succ'] at enough
            _ ≤ base * 2 ^ fuel := Nat.mul_le_mul_right _ two_le
        obtain ⟨t, returned, all⟩ := ih shrinks (emitted.wr2p upcase small)
        refine ⟨t, ?_, ?_⟩
        · rw [if_pos more]
          exact returned
        · rw [lowDigits_of_pos two_le positive, ← digit, ← rest]
          simpa using all
      · have none : A = 0 := by
          rw [gt_iff_lt, BitVec.lt_def] at more
          exact BitVec.eq_of_toNat_eq (Nat.eq_zero_of_not_pos more)
        refine ⟨s, if_neg more, ?_⟩
        rw [none]
        simpa [lowDigits] using emitted

theorem toNat_shiftAdd {x : BitVec 64} (small : x.toNat < 2 ^ 63) (k : Nat) :
    (x >>> k + x).toNat = x.toNat / 2 ^ k + x.toNat := by
  have part := Nat.div_le_self x.toNat (2 ^ k)
  rw [BitVec.toNat_add, BitVec.toNat_ushiftRight, Nat.shiftRight_eq_div_pow]
  refine Nat.mod_eq_of_lt ?_
  calc
    x.toNat / 2 ^ k + x.toNat ≤ x.toNat + x.toNat := Nat.add_le_add_right part _
    _ < 2 ^ 64 := by omega

/-- Each shift rounds down, but the sum is one too small at most. -/
theorem decQuotient_near (A : Word) :
    (decQuotient A).toNat = A.toNat / 10 ∨
      (decQuotient A).toNat + 1 = A.toNat / 10 := by
  have bound := A.isLt
  have wide : (A.setWidth 64).toNat = A.toNat := by
    rw [BitVec.toNat_setWidth]
    omega
  have shift (x : BitVec 64) (k : Nat) :
      (x >>> k).toNat = x.toNat / 2 ^ k := by
    rw [BitVec.toNat_ushiftRight, Nat.shiftRight_eq_div_pow]
  unfold decQuotient
  extract_lets Q₀ Q₁ Q₂
  have first : Q₀.toNat = (A.toNat / 2 ^ 1 + A.toNat) / 2 ^ 1 := by
    rw [shift, toNat_shiftAdd (by omega), wide]
  have second : Q₁.toNat = Q₀.toNat / 2 ^ 4 + Q₀.toNat :=
    toNat_shiftAdd (by omega) 4
  have third : Q₂.toNat = Q₁.toNat / 2 ^ 8 + Q₁.toNat :=
    toNat_shiftAdd (by omega) 8
  rw [shift, toNat_shiftAdd (by omega)]
  omega

theorem toNat_remainder {A : Word} {Q : BitVec 64}
    (below : 10 * Q.toNat ≤ A.toNat)
    (near : A.toNat - 10 * Q.toNat < 2 ^ 32) :
    ((A.setWidth 64 - 10 * Q).setWidth 32).toNat =
      A.toNat - 10 * Q.toNat := by
  have bound := A.isLt
  have product : (10 * Q).toNat = 10 * Q.toNat := by
    rw [BitVec.toNat_mul]
    exact Nat.mod_eq_of_lt (by simp; omega)
  have wide : (A.setWidth 64).toNat = A.toNat := by
    rw [BitVec.toNat_setWidth]
    omega
  rw [BitVec.toNat_setWidth, BitVec.toNat_sub_of_le, product, wide]
  · exact Nat.mod_eq_of_lt near
  · rw [BitVec.le_def, product, wide]
    exact below

theorem decRound_eq (A : Word) :
    (decRound A).1.toNat = A.toNat % 10 ∧
      (decRound A).2.toNat = A.toNat / 10 := by
  have bound := A.isLt
  have near := decQuotient_near A
  have remainder :=
    toNat_remainder (A := A) (Q := decQuotient A) (by omega) (by omega)
  rw [decRound]
  rcases near with exact | low
  · rw [if_neg (by rw [gt_iff_lt, BitVec.lt_def, remainder]; simp; omega)]
    refine ⟨remainder.trans (by omega), ?_⟩
    rw [BitVec.toNat_setWidth]
    omega
  · have next : (decQuotient A + 1).toNat = A.toNat / 10 := by
      rw [BitVec.toNat_add, ← low]
      exact Nat.mod_eq_of_lt (by simp; omega)
    rw [if_pos (by rw [gt_iff_lt, BitVec.lt_def, remainder]; simp; omega)]
    refine ⟨?_, ?_⟩
    · rw [toNat_remainder (by omega) (by omega), next]
      omega
    · rw [BitVec.toNat_setWidth, next]
      omega

theorem digitRound_decRound : DigitRound decRound 10 where
  digit A := (decRound_eq A).1
  rest A := (decRound_eq A).2

theorem digitRound_hexRound : DigitRound hexRound 16 where
  digit A := by
    rw [hexRound, BitVec.toNat_and]
    exact Nat.and_two_pow_sub_one_eq_mod A.toNat 4
  rest A := by
    rw [hexRound, BitVec.toNat_ushiftRight, Nat.shiftRight_eq_div_pow]

theorem numeral_of_lt {n : Nat} (single : n < base) :
    numeral base upcase n = [glyph upcase n.digitChar] := by
  rw [numeral, Nat.toDigits_of_lt_base single]
  rfl

theorem digitLoop_numeral (shape : DigitRound round base) (two_le : 1 < base)
    (le_sixteen : base ≤ 16) (buf : Buffer Byte) (upcase : Bool) {A : Word}
    (more : ¬ A < 1) :
    ∃ t, digitLoop round upcase digitRounds A ⟨buf, 0, 0⟩ = some t ∧
      Emitted buf t (numeral base upcase A.toNat).reverse := by
  obtain ⟨t, returned, emitted⟩ :=
    digitLoop_emits shape two_le le_sixteen upcase A.isLt
      (.start buf)
  refine ⟨t, returned, ?_⟩
  rw [lowDigits, if_neg (by bv_omega)] at emitted
  exact emitted

theorem myDec2str_emits (buf : Buffer Byte) (A : Word) (upcase : Bool) :
    ∃ t, myDec2str buf 0 A upcase = some t ∧
      Emitted buf t (numeral 10 upcase A.toNat).reverse := by
  rw [myDec2str]
  by_cases single : A < 10
  · rw [if_pos single, numeral_of_lt (show A.toNat < 10 from single)]
    exact ⟨_, rfl, (Emitted.start buf).wr2p upcase (by bv_omega)⟩
  · rw [if_neg single]
    by_cases ten : A = 10
    · rw [if_pos ten, ten]
      have zero := (Emitted.start buf).wr2p upcase
        (show (0 : Word).toNat < 16 by decide)
      exact ⟨_, rfl,
        zero.wr2p upcase (show (1 : Word).toNat < 16 by decide)⟩
    · rw [if_neg ten]
      exact digitLoop_numeral digitRound_decRound (by decide) (by decide) buf
        upcase (by bv_omega)

theorem myHex2str_emits (buf : Buffer Byte) (A : Word) (upcase : Bool) :
    ∃ t, myHex2str buf 0 A upcase = some t ∧
      Emitted buf t (numeral 16 upcase A.toNat).reverse := by
  rw [myHex2str]
  by_cases single : A < 16
  · rw [if_pos single, numeral_of_lt (show A.toNat < 16 from single)]
    exact ⟨_, rfl, (Emitted.start buf).wr2p upcase single⟩
  · rw [if_neg single]
    exact digitLoop_numeral digitRound_hexRound (by decide) (by decide) buf
        upcase (by bv_omega)

end Digits

/-! Justification. -/

/-- The digits that `PrintNum` has a helper for. -/
def digitsOf (base : Nat) (upcase : Bool) (n : Nat) : List Byte :=
  if base = 10 ∨ base = 16 then numeral base upcase n else []

theorem printDigits_prints (buf : Buffer Byte) (u : Word) (base : Nat)
    (upcase : Bool) :
    ∃ now, printDigits buf u base upcase =
        some (((digitsOf base upcase u.toNat).length : Int), now) ∧
      Prints buf now (digitsOf base upcase u.toNat).reverse := by
  by_cases dec : base = 10
  · obtain ⟨t, returned, emitted⟩ := myDec2str_emits buf u upcase
    refine ⟨t.buf, ?_, ?_⟩
    · simp [printDigits, dec, returned, emitted.itersCount, digitsOf]
    · simpa [dec, digitsOf] using emitted.prints
  · have notDec : (base : Int) ≠ 10 := by omega
    by_cases hex : base = 16
    · obtain ⟨t, returned, emitted⟩ := myHex2str_emits buf u upcase
      refine ⟨t.buf, ?_, ?_⟩
      · simp [printDigits, hex, returned, emitted.itersCount, digitsOf]
      · simpa [hex, digitsOf] using emitted.prints
    · have notHex : (base : Int) ≠ 16 := by omega
      refine ⟨buf, ?_, ?_⟩
      · simp [printDigits, notDec, notHex, dec, hex, digitsOf]
      · simpa [dec, hex, digitsOf] using Prints.nil buf

theorem Prints.fill (prints : Prints buf now text) (f : Int → Byte)
    (room : Nat) :
    Prints buf (now.fill f text.length (text.length + room : Nat))
      (text ++ (List.range room).map fun k => f (text.length + k : Nat)) := by
  constructor
  · rw [List.length_append, List.length_map, List.length_range,
      Buffer.slice_fill, prints.slice]
  · have wrote := prints.wrote.fill f (Int.natCast_nonneg text.length)
      (Int.le_refl _) (text.length + room : Nat)
    rw [Int.toNat_natCast, max_eq_right (Nat.le_add_right _ _)] at wrote
    rw [List.length_append, List.length_map, List.length_range]
    exact wrote

theorem Prints.fill_const (prints : Prints buf now text) (c : Byte)
    (room : Nat) :
    Prints buf
      (now.fill (fun _ => c) text.length (text.length + room : Nat))
      (text ++ List.replicate room c) := by
  have filled := prints.fill (fun _ => c) room
  rwa [List.map_const', List.length_range] at filled

theorem Prints.reverse (front back : List Byte)
    (prints : Prints buf now (front ++ back)) :
    Prints buf (now.reverse 0 ((front.length : Int) - 1))
      (front.reverse ++ back) := by
  have slice := prints.slice
  rw [List.length_append] at slice
  constructor
  · rw [List.length_append, List.length_reverse, Buffer.slice_reverse, slice,
      List.take_left, List.drop_left]
  · have inside : (front.length : Int) - 1 <
        ((front ++ back).length : Nat) := by
      rw [List.length_append]
      omega
    simpa using prints.wrote.reverse inside

/-- The last character moves outwards and leaves its place to the filling. -/
theorem Prints.fillInside {front : List Byte} {last : Byte}
    (prints : Prints buf now (front ++ [last])) (c : Byte) (room : Nat) :
    Prints buf
      ((now.fill (fun _ => c) front.length (front.length + room : Nat)).put
        (front.length + room : Nat) last)
      (front ++ List.replicate room c ++ [last]) := by
  have size : (front ++ [last]).length = front.length + 1 :=
    List.length_append
  have total : (front ++ List.replicate room c ++ [last]).length =
      front.length + room + 1 := by
    rw [List.length_append, List.length_append, List.length_replicate,
      List.length_singleton]
  constructor
  · have whole := prints.slice
    rw [size] at whole
    rw [total, Buffer.slice_put, Buffer.slice_fill, List.map_const',
      List.length_range, ← Buffer.take_slice now front.length 1, whole,
      List.take_left]
  · have wrote := prints.wrote
    rw [size] at wrote
    have filled := wrote.fill (fun _ => c) (Int.natCast_nonneg front.length)
      (by omega) (front.length + room : Nat)
    rw [Int.toNat_natCast] at filled
    have put := filled.put (m := front.length + room) (by omega) last
    rw [max_eq_right (by omega)] at put
    rw [total]
    exact put

/-- The whole text is reversed. -/
theorem Prints.reverse_all (prints : Prints buf now text) :
    Prints buf (now.reverse 0 ((text.length : Int) - 1)) text.reverse := by
  have reversed := Prints.reverse text [] (by rwa [List.append_nil])
  rwa [List.append_nil] at reversed

def padChar (zero : Bool) : Byte := if zero then chr '0' else chr ' '

theorem length_pad (left zero : Bool) (width : Int)
    (sign digits : List Byte) :
    (pad left zero width sign digits).length =
      max width.toNat (digits.length + sign.length) := by
  unfold pad
  split
  · simp
    omega
  · split <;> simp <;> omega

section Justify

variable {digits : List Byte} {negative : Bool} {actual : Nat}

@[simp] theorem reverse_sign (negative : Bool) :
    (sign negative).reverse = sign negative := by
  cases negative <;> rfl

/-- The room that is left for the padding. -/
theorem justified_length (actual : Nat) (width : Int) :
    (if width < (actual : Int) then (actual : Int) else width) =
      (actual + (width.toNat - actual) : Nat) := by
  split <;> omega

theorem justify_left
    (prints : Prints buf now (digits.reverse ++ sign negative))
    (counted : actual = digits.length + (sign negative).length)
    (width : Int) (zero : Bool) (padc : Byte) :
    Prints buf (justify now actual negative width true padc).2
      (pad true zero width (sign negative) digits) := by
  have front : (digits.reverse ++ sign negative).length = actual := by
    simp [counted]
  have reversed := Prints.reverse _ _
    (prints.fill_const (chr ' ') (width.toNat - actual))
  rw [front] at reversed
  have layout : (justify now actual negative width true padc).2 =
      (now.fill (fun _ => chr ' ') actual
        (actual + (width.toNat - actual) : Nat)).reverse 0
          ((actual : Int) - 1) := by
    simp [justify, justified_length]
  rw [layout]
  simpa [pad, counted] using reversed

/-- The zeros start at the sign, which moves to the end. -/
theorem justify_inner (prints : Prints buf now (digits.reverse ++ sign true))
    (counted : actual = digits.length + 1) (width : Int) :
    Prints buf (justify now actual true width false (chr '0')).2
      (pad false true width (sign true) digits) := by
  let room := width.toNat - actual
  have total : (digits.reverse ++ List.replicate room (chr '0') ++
      [chr '-']).length = actual + room := by
    simp [counted]
    omega
  have reversed := (Prints.fillInside prints (chr '0') room).reverse_all
  rw [total, List.length_reverse] at reversed
  have start : (actual : Int) - 1 = digits.length := by
    omega
  have stop : ((actual + room : Nat) : Int) - 1 =
      (digits.length + room : Nat) := by
    omega
  have layout : (justify now actual true width false (chr '0')).2 =
      ((now.fill (fun _ => chr '0') digits.length
        (digits.length + room : Nat)).put (digits.length + room : Nat)
          (chr '-')).reverse 0 (((actual + room : Nat) : Int) - 1) := by
    rw [← start, ← stop]
    simp only [justify, justified_length]
    rfl
  rw [layout]
  simpa [pad, counted, sign, room] using reversed

/-- The padding and the sign are reversed together with the digits. -/
theorem justify_outer
    (prints : Prints buf now (digits.reverse ++ sign negative))
    (counted : actual = digits.length + (sign negative).length)
    (width : Int) (zero : Bool) (outer : ¬ (negative ∧ zero)) :
    Prints buf (justify now actual negative width false (padChar zero)).2
      (pad false zero width (sign negative) digits) := by
  have front : (digits.reverse ++ sign negative).length = actual := by
    simp [counted]
  have reversed :=
    (prints.fill_const (padChar zero) (width.toNat - actual)).reverse_all
  have total : (digits.reverse ++ sign negative ++
      List.replicate (width.toNat - actual) (padChar zero)).length =
      actual + (width.toNat - actual) := by
    rw [List.length_append, List.length_replicate, front]
  rw [total, front] at reversed
  have notInner : ¬ (negative ∧ ¬ False ∧ padChar zero = chr '0') := by
    revert outer
    cases negative <;> cases zero <;> decide
  have layout : (justify now actual negative width false (padChar zero)).2 =
      (now.fill (fun _ => padChar zero) actual
        (actual + (width.toNat - actual) : Nat)).reverse 0
          (((actual + (width.toNat - actual) : Nat) : Int) - 1) := by
    simp only [justify, justified_length, Bool.false_eq_true, if_false]
    rw [if_neg notInner]
  rw [layout]
  cases zero with
  | false => simpa [pad, counted, padChar] using reversed
  | true =>
      cases negative with
      | false => simpa [pad, counted, padChar, sign] using reversed
      | true => exact absurd ⟨rfl, rfl⟩ outer

theorem justify_prints
    (prints : Prints buf now (digits.reverse ++ sign negative))
    (counted : actual = digits.length + (sign negative).length)
    (width : Int) (left zero : Bool) :
    ∃ later,
      justify now actual negative width left (padChar zero) =
        (((pad left zero width (sign negative) digits).length : Int),
          later) ∧
      Prints buf later
        (pad left zero width (sign negative) digits) := by
  have length : (justify now actual negative width left (padChar zero)).1 =
      ((pad left zero width (sign negative) digits).length : Int) := by
    rw [length_pad, ← counted]
    exact (justified_length actual width).trans (by omega)
  refine ⟨_, Prod.ext length rfl, ?_⟩
  cases left with
  | true => exact justify_left prints counted width zero _
  | false =>
      by_cases inner : negative ∧ zero
      · obtain ⟨rfl, rfl⟩ := inner
        exact justify_inner prints counted width
      · exact justify_outer prints counted width zero inner

end Justify

theorem printNum_prints (buf : Buffer Byte) (u : Word) (base : Nat)
    (negFlag : Bool) (width : Int) (left zero upcase : Bool) :
    ∃ now,
      printNum buf u base negFlag width left (padChar zero) upcase =
        some (((pad left zero width (sign negFlag)
          (digitsOf base upcase u.toNat)).length : Int), now) ∧
      Prints buf now (pad left zero width (sign negFlag)
        (digitsOf base upcase u.toNat)) := by
  obtain ⟨now, returned, prints⟩ := printDigits_prints buf u base upcase
  rw [printNum, returned]
  cases negFlag with
  | false =>
      have unsigned : Prints buf now
          ((digitsOf base upcase u.toNat).reverse ++ sign false) := by
        simpa [sign] using prints
      obtain ⟨later, justified, all⟩ :=
        justify_prints unsigned rfl width left zero
      exact ⟨later, congrArg some justified, all⟩
  | true =>
      have signed := prints.put (chr '-')
      rw [List.length_reverse, show [chr '-'] = sign true from rfl] at signed
      obtain ⟨later, justified, all⟩ :=
        justify_prints signed rfl width left zero
      exact ⟨later, congrArg some justified, all⟩

/-- The length is that of the sign and the numeral, or the width. -/
theorem printNum_justifies (bytes : Int → Byte) (u : Word) (base : Nat)
    (negFlag : Bool) (width : Int) (ladjust : Bool) (padc : Byte)
    (upcase : Bool) (helper : base = 10 ∨ base = 16)
    (either : padc = chr ' ' ∨ padc = chr '0') :
    ∃ now text,
      printNum ⟨bytes, []⟩ u base negFlag width ladjust padc upcase =
        some (max width ((numeral base upcase u.toNat).length +
          (sign negFlag).length), now) ∧
      text = pad ladjust (padc = chr '0') width (sign negFlag)
        (numeral base upcase u.toNat) ∧
      (text.length : Int) = max width ((numeral base upcase u.toNat).length +
        (sign negFlag).length) ∧
      now.slice text.length = text ∧
      ∀ i, i ∈ now.written ↔ 0 ≤ i ∧ i < text.length := by
  have char : padc = padChar (padc = chr '0') := by
    rcases either with rfl | rfl <;> decide
  have digits : digitsOf base upcase u.toNat = numeral base upcase u.toNat :=
    if_pos helper
  obtain ⟨now, returned, prints⟩ := printNum_prints ⟨bytes, []⟩ u base negFlag
    width ladjust (padc = chr '0') upcase
  rw [digits, ← char] at returned
  rw [digits] at prints
  have length : ((pad ladjust (padc = chr '0') width (sign negFlag)
      (numeral base upcase u.toNat)).length : Int) =
      max width ((numeral base upcase u.toNat).length +
        (sign negFlag).length) := by
    rw [length_pad]
    omega
  rw [length] at returned
  refine ⟨now, _, returned, rfl, length, prints.slice, fun i => ?_⟩
  simpa using prints.wrote i

theorem printNum_justifies_minus :
    ∃ now, printNum ⟨fun _ => 0, []⟩ 42 10 true 6 false (chr '0') false =
        some (6, now) ∧
      now.slice 6 = "-00042".toList.map chr := by
  obtain ⟨now, text, returned, rfl, _, slice, _⟩ :=
    printNum_justifies (fun _ => 0) 42 10 true 6 false (chr '0') false
      (.inl rfl) (.inr rfl)
  have text : pad false (chr '0' = chr '0') 6 (sign true)
      (numeral 10 false (42 : Word).toNat) = "-00042".toList.map chr := by
    decide
  rw [text] at slice
  exact ⟨now, returned, slice⟩

end AuxLoader.Printf
