import Mathlib.Algebra.Order.BigOperators.Group.List
import AuxLoader.Printf.Bounds

namespace AuxLoader.Printf

open Data

/-! What `lp_Print` hands to `output`. -/

/-- `lp_Print` returns, its calls of `output` spell the items, and the last one
terminates the text. -/
def Renders (fmt : CString) (ap : Nat → Arg) (stack : Int → Byte) : Prop :=
  ∃ outcome body, lpPrint fmt ap stack = some outcome ∧
    outcome.hangs = false ∧ outcome.calls = body ++ [[0]] ∧
    body.flatten = (items fmt ap).flatMap Item.rendering

/-- Runs, widths and strings of at most `LP_MAX_BUF` characters. -/
def Item.Admissible : Item → Prop
  | .literal run => run.length ≤ lpMaxBuf
  | .truncated _ => True
  | .directive d c arg => decimal d.width ≤ lpMaxBuf ∧
      (meaning c = .string → arg.string.bytes.length ≤ lpMaxBuf)

/-- In the bases without a helper only the padding can spell the number. -/
def Item.Spelled : Item → Prop
  | .directive d c arg => c = chr 'b' ∨ c = chr 'o' ∨ c = chr 'O' →
      d.left = false ∧ d.zero = true ∧ 0 < decimal d.width ∧ arg.word = 0
  | _ => True

instance : DecidablePred Item.Admissible
  | .literal run => inferInstanceAs (Decidable ((run.length : Int) ≤ lpMaxBuf))
  | .truncated _ => inferInstanceAs (Decidable True)
  | .directive d c arg => inferInstanceAs (Decidable
      (decimal d.width ≤ lpMaxBuf ∧
        (meaning c = .string → arg.string.bytes.length ≤ lpMaxBuf)))

instance : DecidablePred Item.Spelled
  | .literal _ => inferInstanceAs (Decidable True)
  | .truncated _ => inferInstanceAs (Decidable True)
  | .directive d c arg => inferInstanceAs (Decidable
      (c = chr 'b' ∨ c = chr 'o' ∨ c = chr 'O' →
        d.left = false ∧ d.zero = true ∧ 0 < decimal d.width ∧ arg.word = 0))

theorem cInt_of_le {n : Nat} (small : n ≤ lpMaxBuf) : cInt n = n := by
  have room : lpMaxBuf = 256 := rfl
  apply Int.bmod_eq_of_le
  · simp
  · simp
    omega

section Numerals

variable {base : Nat} {upcase : Bool} {n : Nat}

theorem numeral_of_ge (two_le : 1 < base) (more : base ≤ n) :
    numeral base upcase n = numeral base upcase (n / base) ++
      [glyph upcase (n % base).digitChar] := by
  rw [numeral, Nat.toDigits_of_base_le two_le more, List.map_append]
  rfl

theorem glyph_digit (upcase : Bool) {d : Nat} (digit : d < 16) :
    glyph upcase d.digitChar ≠ chr ' ' ∧
      (glyph upcase d.digitChar = chr '0' → d = 0) := by
  have table : ∀ (upcase : Bool) (d : Fin 16),
      glyph upcase d.val.digitChar ≠ chr ' ' ∧
        (glyph upcase d.val.digitChar = chr '0' → d.val = 0) := by
    decide
  exact table upcase ⟨d, digit⟩

/-- A numeral has no space in it, and a digit other than zero unless it is the
numeral of zero. -/
theorem numeral_digits (two_le : 1 < base) (le_sixteen : base ≤ 16)
    (upcase : Bool) (n : Nat) :
    chr ' ' ∉ numeral base upcase n ∧
      ((∀ x ∈ numeral base upcase n, x = chr '0') → n = 0) := by
  induction n using Nat.strong_induction_on with
  | _ n ih =>
      by_cases single : n < base
      · have digit := glyph_digit upcase (show n < 16 by omega)
        rw [numeral_of_lt single]
        simp only [List.mem_singleton, forall_eq]
        exact ⟨Ne.symm digit.1, digit.2⟩
      · have more := Nat.le_of_not_lt single
        have last := Nat.mod_lt n (Nat.zero_lt_of_lt two_le)
        have digit := glyph_digit upcase (show n % base < 16 by omega)
        have front := ih (n / base)
          (Nat.div_lt_self (by omega) two_le)
        have positive : n / base ≠ 0 :=
          (Nat.div_pos more (by omega)).ne'
        rw [numeral_of_ge two_le more]
        constructor
        · rw [List.mem_append, List.mem_singleton]
          exact not_or.mpr ⟨front.1, Ne.symm digit.1⟩
        · intro zeros
          exact absurd
            (front.2 fun x member => zeros x (List.mem_append_left _ member))
            positive

theorem numeral_ne_nil (base : Nat) (upcase : Bool) (n : Nat) :
    numeral base upcase n ≠ [] := by
  simp [numeral]

theorem numeral_zero (two_le : 1 < base) (upcase : Bool) :
    numeral base upcase 0 = [chr '0'] := by
  rw [numeral_of_lt (by omega)]
  cases upcase <;> rfl

/-- Padding alone is a numeral only if that is the numeral of zero. -/
theorem pad_nil_eq_iff (two_le : 1 < base) (le_sixteen : base ≤ 16)
    (left zero upcase : Bool) (width n : Nat) :
    pad left zero width [] [] =
        pad left zero width [] (numeral base upcase n) ↔
      left = false ∧ zero = true ∧ 0 < width ∧ n = 0 := by
  have digits := numeral_digits two_le le_sixteen upcase n
  have filled {c : Byte} {front back : List Byte}
      (same : List.replicate width c =
        front ++ numeral base upcase n ++ back) :
      ∀ x ∈ numeral base upcase n, x = c := by
    intro x member
    refine List.eq_of_mem_replicate (n := width) ?_
    rw [same]
    simp [member]
  -- A digit is never a space.
  have spaces {front back : List Byte} :
      ¬ List.replicate width (chr ' ') =
        front ++ numeral base upcase n ++ back := by
    intro same
    obtain ⟨first, rest, spelled⟩ :=
      List.exists_cons_of_ne_nil (numeral_ne_nil base upcase n)
    have member : first ∈ numeral base upcase n := by simp [spelled]
    exact digits.1 (filled same first member ▸ member)
  cases left with
  | true =>
      refine iff_of_false (fun same => ?_) (by simp)
      exact @spaces [] _ (by simpa [pad] using same)
  | false =>
      cases zero with
      | false =>
          refine iff_of_false (fun same => ?_) (by simp)
          exact @spaces _ [] (by simpa [pad] using same)
      | true =>
          constructor
          · intro same
            have zeros := @filled (chr '0') _ [] (by simpa [pad] using same)
            refine ⟨rfl, rfl, Nat.pos_of_ne_zero fun none => ?_, digits.2 zeros⟩
            rw [none] at same
            exact numeral_ne_nil base upcase n (by simpa [pad] using same)
          · rintro ⟨_, _, positive, rfl⟩
            obtain ⟨room, rfl⟩ := Nat.exists_eq_succ_of_ne_zero positive.ne'
            rw [numeral_zero two_le]
            simp [pad, List.replicate_succ']

end Numerals

/-! Item by item. -/

/-- The bases without a helper are those of `b`, `o` and `O`. -/
theorem meaning_number {c : Byte} {base : Nat} {signed upcase : Bool}
    (kind : meaning c = .number base signed upcase) :
    (base = 10 ∨ base = 16) ∧ ¬ (c = chr 'b' ∨ c = chr 'o' ∨ c = chr 'O') ∨
      (base = 2 ∨ base = 8) ∧ signed = false ∧
        (c = chr 'b' ∨ c = chr 'o' ∨ c = chr 'O') := by
  rw [← conversion_eq_meaning] at kind
  unfold conversion at kind
  split at kind
  next letter =>
    cases kind
    exact .inr ⟨.inl rfl, rfl, .inl letter⟩
  split at kind
  next letter =>
    cases kind
    exact .inl ⟨.inl rfl, by rcases letter with rfl | rfl <;> decide⟩
  split at kind
  next letter =>
    cases kind
    exact .inr ⟨.inr rfl, rfl, .inr letter⟩
  split at kind
  next letter =>
    cases kind
    exact .inl ⟨.inl rfl, by rcases letter with rfl | rfl <;> decide⟩
  split at kind
  next letter =>
    cases kind
    exact .inl ⟨.inr rfl, by rw [letter]; decide⟩
  split at kind
  next letter =>
    cases kind
    exact .inl ⟨.inr rfl, by rw [letter]; decide⟩
  split at kind
  next => cases kind
  split at kind
  next => cases kind
  next => cases kind

theorem meaning_letter {c : Byte}
    (letter : c = chr 'b' ∨ c = chr 'o' ∨ c = chr 'O') :
    ∃ base, meaning c = .number base false false := by
  rcases letter with rfl | rfl | rfl
  · exact ⟨2, rfl⟩
  · exact ⟨8, rfl⟩
  · exact ⟨8, rfl⟩

section Items

variable {item : Item}

theorem Item.Admissible.fits (admissible : item.Admissible) :
    item.printed.length ≤ lpMaxBuf := by
  cases item with
  | literal run => exact admissible
  | truncated d => exact show (0 : Int) ≤ 256 by decide
  | directive d c arg =>
      refine (Item.fits_iff rfl).mp fun _ => ⟨?_, admissible.2⟩
      rw [cInt_of_le admissible.1]
      exact admissible.1

theorem Item.printed_eq_iff (admissible : item.Admissible) :
    item.printed = item.rendering ↔ item.Spelled := by
  cases item with
  | literal run =>
      simp only [Item.printed, Item.rendering, Item.text, Item.Spelled]
  | truncated d =>
      simp only [Item.printed, Item.rendering, Item.text, Item.Spelled]
  | directive d c arg =>
      have width := cInt_of_le admissible.1
      rcases kind : meaning c with ⟨base, signed, upcase⟩ | _ | _ | _
      · simp only [Item.printed, Item.rendering, Item.text, kind, width]
        rcases meaning_number kind with
          ⟨helper, other⟩ | ⟨small, unsigned, letter⟩
        · exact iff_of_true (by rw [digitsOf, if_pos helper])
            fun letter => absurd letter other
        · have none : digitsOf base upcase (magnitude signed arg.word) = [] :=
            if_neg (by omega)
          have word : arg.word.toNat = 0 ↔ arg.word = 0 :=
            BitVec.toNat_inj (x := arg.word) (y := 0)
          rw [none, unsigned]
          refine (pad_nil_eq_iff (by omega) (by omega) d.left d.zero upcase
            (decimal d.width) arg.word.toNat).trans ?_
          rw [word]
          exact ⟨fun spelled _ => spelled, fun spelled => spelled letter⟩
      -- The other conversions print the same text either way.
      all_goals
        refine iff_of_true
          (by simp only [Item.printed, Item.rendering, Item.text, kind, width])
          fun letter => ?_
        obtain ⟨base, number⟩ := meaning_letter letter
        rw [kind] at number
        cases number

theorem Item.length_printed_le (admissible : item.Admissible) :
    item.printed.length ≤ item.rendering.length := by
  cases item with
  | literal run => simp only [Item.printed, Item.rendering, Item.text, le_refl]
  | truncated d => simp only [Item.printed, Item.rendering, Item.text, le_refl]
  | directive d c arg =>
      have width := cInt_of_le admissible.1
      rcases kind : meaning c with ⟨base, signed, upcase⟩ | _ | _ | _
      all_goals simp only [Item.printed, Item.rendering, Item.text, kind,
        width, length_pad, le_refl]
      unfold digitsOf
      split
      · exact le_refl _
      · rw [List.length_nil]
        omega

end Items

section Running

variable {items : List Item} {buf : Buffer Byte} {calls : List (List Byte)}
  {outcome : Outcome}

theorem Runs.calls_eq (runs : Runs items buf calls outcome)
    (fits : ∀ item ∈ items, item.printed.length ≤ lpMaxBuf) :
    outcome.hangs = false ∧
      outcome.calls = calls ++ items.flatMap Item.calls ++ [[0]] := by
  induction runs with
  | done => simp
  | @call item items buf now calls outcome writes small rest ih =>
      have onward := ih fun item member =>
        fits item (List.mem_cons_of_mem _ member)
      rw [List.flatMap_cons, ← List.append_assoc]
      exact onward
  | hang writes long =>
      exact absurd (fits _ List.mem_cons_self) (not_le.mpr long)

theorem flatten_calls (items : List Item) :
    (items.flatMap Item.calls).flatten = items.flatMap Item.printed := by
  induction items with
  | nil => rfl
  | cons item items ih =>
      rw [List.flatMap_cons, List.flatMap_cons, List.flatten_append, ih]
      congr 1
      cases item <;> simp [Item.calls, Item.printed, Item.text]

end Running

/-- Texts none of which is longer than its counterpart. -/
theorem flatMap_eq_iff {ι α : Type} {f g : ι → List α} {xs : List ι}
    (shorter : ∀ x ∈ xs, (f x).length ≤ (g x).length) :
    xs.flatMap f = xs.flatMap g ↔ ∀ x ∈ xs, f x = g x := by
  induction xs with
  | nil => simp
  | cons x xs ih =>
      rw [List.forall_mem_cons] at shorter
      rw [List.flatMap_cons, List.flatMap_cons, List.forall_mem_cons,
        ← ih shorter.2]
      constructor
      · intro same
        have rest : (xs.flatMap f).length ≤ (xs.flatMap g).length := by
          rw [List.length_flatMap, List.length_flatMap]
          exact List.sum_le_sum shorter.2
        have lengths := congrArg List.length same
        rw [List.length_append, List.length_append] at lengths
        exact List.append_inj same (by have := shorter.1; omega)
      · rintro ⟨here, rest⟩
        rw [here, rest]

theorem renders_iff_printed {fmt : CString} {ap : Nat → Arg}
    {stack : Int → Byte}
    (admissible : ∀ item ∈ items fmt ap, item.Admissible) :
    Renders fmt ap stack ↔
      (items fmt ap).flatMap Item.printed =
        (items fmt ap).flatMap Item.rendering := by
  obtain ⟨outcome, returned, runs⟩ := lpPrint_runs fmt ap stack
  obtain ⟨returns, calls⟩ :=
    runs.calls_eq fun item member => (admissible item member).fits
  rw [List.nil_append] at calls
  rw [← flatten_calls]
  constructor
  · rintro ⟨other, body, again, _, same, text⟩
    rw [returned] at again
    cases again
    rw [calls] at same
    rwa [List.append_cancel_right same]
  · intro text
    exact ⟨outcome, _, returned, returns, calls, text⟩

/-- Padding with zeros spells a zero in every base. -/
theorem lpPrint_renders_iff (fmt : CString) (ap : Nat → Arg)
    (stack : Int → Byte)
    (admissible : ∀ item ∈ items fmt ap, item.Admissible) :
    Renders fmt ap stack ↔ ∀ item ∈ items fmt ap, item.Spelled := by
  rw [renders_iff_printed admissible, flatMap_eq_iff fun item member =>
    Item.length_printed_le (admissible item member)]
  exact forall₂_congr fun item member =>
    Item.printed_eq_iff (admissible item member)

theorem lpPrint_renders_iff_hex :
    Renders (.lit "%-4d|%04X%%") (fun _ => .number 0xa5) (fun _ => 0) :=
  (lpPrint_renders_iff _ _ _ (by decide +kernel)).mpr (by decide +kernel)

theorem lpPrint_drops_binary :
    (∀ item ∈ items (.lit "%b") fun _ => .number 5, item.Admissible) ∧
      ¬ Renders (.lit "%b") (fun _ => .number 5) (fun _ => 0) := by
  have admissible :
      ∀ item ∈ items (.lit "%b") fun _ => .number 5, item.Admissible := by
    decide +kernel
  refine ⟨admissible, ?_⟩
  rw [renders_iff_printed admissible]
  decide +kernel

end AuxLoader.Printf
