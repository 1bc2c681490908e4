import AuxLoader.Printf.Format

namespace AuxLoader.Printf

open Data

/-! The format language, and what `lp_Print` makes of it. -/

/-- What stands between a `%` and the conversion. -/
structure Directive where
  long : Bool
  left : Bool
  zero : Bool
  width : List Byte
  prec : Option (List Byte)

/-- The number that the digits write. -/
def decimal (digits : List Byte) : Nat :=
  digits.foldl (fun n x => 10 * n + (x.toNat - (chr '0').toNat)) 0

def flag (c : Char) (set : Bool) : List Byte := if set then [chr c] else []

def Directive.spell (d : Directive) : List Byte :=
  flag 'l' d.long ++ flag '-' d.left ++ flag '0' d.zero ++ d.width ++
    (d.prec.map fun digits => chr '.' :: digits).getD []

/-- Every part is as long as it can be. -/
def readDirective (fmt : List Byte) : Directive × List Byte :=
  let (long, fmt) := accept 'l' fmt
  let (left, fmt) := accept '-' fmt
  let (zero, fmt) := accept '0' fmt
  let width := fmt.takeWhile isDigit
  let (dot, fmt) := accept '.' (fmt.dropWhile isDigit)
  if dot then
    (⟨long, left, zero, width, some (fmt.takeWhile isDigit)⟩,
      fmt.dropWhile isDigit)
  else (⟨long, left, zero, width, none⟩, fmt)

inductive Item where
  | literal (run : List Byte)
  | directive (d : Directive) (c : Byte) (arg : Arg)
  /-- The string ends inside the directive. -/
  | truncated (d : Directive)

def Item.spell : Item → List Byte
  | .literal run => run
  | .directive d c _ => chr '%' :: d.spell ++ [c]
  | .truncated d => chr '%' :: d.spell

/-- The letters of the language, and what each asks for. -/
def letters : List (Char × Conversion) :=
  [('d', .number 10 true false), ('D', .number 10 true false),
    ('u', .number 10 false false), ('U', .number 10 false false),
    ('x', .number 16 false false), ('X', .number 16 false true),
    ('o', .number 8 false false), ('O', .number 8 false false),
    ('b', .number 2 false false), ('c', .char), ('s', .string)]

/-- Any other character stands for itself. -/
def meaning (c : Byte) : Conversion :=
  ((letters.find? fun letter => chr letter.1 = c).map Prod.snd).getD .other

theorem conversion_eq_meaning (c : Byte) : conversion c = meaning c := by
  have table : ∀ n : Fin 256, conversion (.ofFin n) = meaning (.ofFin n) := by
    decide +kernel
  exact table c.toFin

def takesArg (c : Byte) : Bool :=
  match meaning c with
  | .other => false
  | _ => true

def itemsWithin : Nat → List Byte → (Nat → Arg) → List Item
  | 0, _, _ => []
  | fuel + 1, fmt, ap =>
      .literal (fmt.takeWhile (· ≠ chr '%')) ::
        match fmt.dropWhile (· ≠ chr '%') with
        | [] => []
        | _ :: fmt =>
            let (d, fmt) := readDirective fmt
            match fmt with
            | [] => .truncated d :: itemsWithin fuel [] ap
            | c :: fmt =>
                .directive d c (ap 0) :: itemsWithin fuel fmt
                  (if takesArg c then fun n => ap (n + 1) else ap)

/-- The literal runs and the directives of a format string, with the arguments
that the directives take. -/
def items (fmt : CString) (ap : Nat → Arg) : List Item :=
  itemsWithin (fmt.bytes.length + 1) fmt.bytes ap

theorem accept_spell {c : Char} {fmt rest : List Byte} {set : Bool}
    (accepted : accept c fmt = (set, rest)) : flag c set ++ rest = fmt := by
  cases fmt with
  | nil =>
      cases accepted
      rfl
  | cons x fmt =>
      rw [accept] at accepted
      split at accepted
      next same =>
        cases accepted
        rw [same]
        rfl
      next =>
        cases accepted
        rfl

theorem readDirective_spell (fmt : List Byte) :
    (readDirective fmt).1.spell ++ (readDirective fmt).2 = fmt := by
  rcases first : accept 'l' fmt with ⟨long, fmt₁⟩
  rcases second : accept '-' fmt₁ with ⟨left, fmt₂⟩
  rcases third : accept '0' fmt₂ with ⟨zero, fmt₃⟩
  rcases fourth : accept '.' (fmt₃.dropWhile isDigit) with ⟨dot, fmt₄⟩
  have width := List.takeWhile_append_dropWhile (p := isDigit) (l := fmt₃)
  have prec := List.takeWhile_append_dropWhile (p := isDigit) (l := fmt₄)
  rw [← accept_spell fourth] at width
  have prefixes : flag 'l' long ++ flag '-' left ++ flag '0' zero ++ fmt₃ =
      fmt := by
    rw [← accept_spell first, ← accept_spell second, ← accept_spell third]
    simp only [List.append_assoc]
  simp only [readDirective, first, second, third, fourth, Directive.spell]
  cases dot with
  | true =>
      calc
        _ = flag 'l' long ++ flag '-' left ++ flag '0' zero ++
            (fmt₃.takeWhile isDigit ++ ([chr '.'] ++
              (fmt₄.takeWhile isDigit ++ fmt₄.dropWhile isDigit))) := by
          simp
        _ = flag 'l' long ++ flag '-' left ++ flag '0' zero ++ fmt₃ := by
          rw [prec]
          exact congrArg _ width
        _ = fmt := prefixes
  | false =>
      calc
        _ = flag 'l' long ++ flag '-' left ++ flag '0' zero ++
            (fmt₃.takeWhile isDigit ++ fmt₄) := by
          simp
        _ = flag 'l' long ++ flag '-' left ++ flag '0' zero ++ fmt₃ :=
          congrArg _ width
        _ = fmt := prefixes

theorem length_readDirective_le (fmt : List Byte) :
    (readDirective fmt).2.length ≤ fmt.length := by
  have spelled := congrArg List.length (readDirective_spell fmt)
  rw [List.length_append] at spelled
  omega

/-- A literal run ends with the string or at a `%`. -/
theorem run_append (fmt : List Byte) :
    fmt.dropWhile (· ≠ chr '%') = [] ∧
        fmt.takeWhile (· ≠ chr '%') = fmt ∨
      ∃ rest, fmt.dropWhile (· ≠ chr '%') = chr '%' :: rest ∧
        rest.length < fmt.length ∧
        fmt.takeWhile (· ≠ chr '%') ++ chr '%' :: rest = fmt := by
  have whole := List.takeWhile_append_dropWhile
    (p := fun x => x ≠ chr '%') (l := fmt)
  have head := List.head?_dropWhile_not (fun x => x ≠ chr '%') fmt
  cases stop : fmt.dropWhile (· ≠ chr '%') with
  | nil =>
      rw [stop, List.append_nil] at whole
      exact .inl ⟨rfl, whole⟩
  | cons x rest =>
      rw [stop] at whole head
      have percent : x = chr '%' := by simpa using head
      subst percent
      have lengths := congrArg List.length whole
      rw [List.length_append, List.length_cons] at lengths
      exact .inr ⟨rest, rfl, by omega, whole⟩

section Reading

variable {fuel : Nat} {fmt rest tail : List Byte} {ap : Nat → Arg}
  {d : Directive} {c : Byte}

theorem itemsWithin_stop (stop : fmt.dropWhile (· ≠ chr '%') = []) :
    itemsWithin (fuel + 1) fmt ap =
      [.literal (fmt.takeWhile (· ≠ chr '%'))] := by
  rw [itemsWithin, stop]

theorem itemsWithin_truncated
    (percent : fmt.dropWhile (· ≠ chr '%') = chr '%' :: rest)
    (read : readDirective rest = (d, [])) :
    itemsWithin (fuel + 1) fmt ap =
      .literal (fmt.takeWhile (· ≠ chr '%')) :: .truncated d ::
        itemsWithin fuel [] ap := by
  rw [itemsWithin, percent]
  simp only [read]

theorem itemsWithin_directive
    (percent : fmt.dropWhile (· ≠ chr '%') = chr '%' :: rest)
    (read : readDirective rest = (d, c :: tail)) :
    itemsWithin (fuel + 1) fmt ap =
      .literal (fmt.takeWhile (· ≠ chr '%')) :: .directive d c (ap 0) ::
        itemsWithin fuel tail
          (if takesArg c then fun n => ap (n + 1) else ap) := by
  rw [itemsWithin, percent]
  simp only [read]

theorem itemsWithin_spell (enough : fmt.length < fuel) (ap : Nat → Arg) :
    (itemsWithin fuel fmt ap).flatMap Item.spell = fmt := by
  induction fuel generalizing fmt ap with
  | zero => exact absurd enough (Nat.not_lt_zero _)
  | succ fuel ih =>
      rcases run_append fmt with ⟨stop, whole⟩ | ⟨rest, percent, less, whole⟩
      · rw [itemsWithin_stop stop]
        simpa [Item.spell] using whole
      · have spelled := readDirective_spell rest
        have shorter := length_readDirective_le rest
        rcases read : readDirective rest with ⟨d, tail⟩
        rw [read] at spelled shorter
        rw [← spelled] at whole
        cases tail with
        | nil =>
            have room : ([] : List Byte).length < fuel := by
              rw [List.length_nil]
              omega
            have last := ih room ap
            rw [itemsWithin_truncated percent read, List.flatMap_cons,
              List.flatMap_cons, last]
            simpa [Item.spell] using whole
        | cons c tail =>
            rw [List.length_cons] at shorter
            have last := ih (by omega : tail.length < fuel)
              (if takesArg c then fun n => ap (n + 1) else ap)
            rw [itemsWithin_directive percent read, List.flatMap_cons,
              List.flatMap_cons, last]
            simpa [Item.spell] using whole

end Reading

/-- The items are the whole format string. -/
theorem items_spell (fmt : CString) (ap : Nat → Arg) :
    (items fmt ap).flatMap Item.spell = fmt.bytes :=
  itemsWithin_spell (Nat.lt_succ_self fmt.bytes.length) ap

/-! The scanner. -/

theorem cInt_step (n : Int) (x : Byte) :
    cInt (10 * cInt n + ctod x) = cInt (10 * n + ctod x) := by
  unfold cInt
  rw [← Int.bmod_add_bmod, Int.mul_bmod_bmod, Int.bmod_add_bmod]

theorem scanDigits_eq (n : Nat) (fmt : List Byte) :
    scanDigits (cInt n) fmt =
      (cInt ((fmt.takeWhile isDigit).foldl
        (fun n x => 10 * n + (x.toNat - (chr '0').toNat)) n : Nat),
        fmt.dropWhile isDigit) := by
  induction fmt generalizing n with
  | nil => rfl
  | cons x fmt ih =>
      rw [scanDigits]
      by_cases digit : isDigit x
      · have value : (10 * n + ctod x : Int) =
            (10 * n + (x.toNat - (chr '0').toNat) : Nat) := by
          have least : (chr '0').toNat ≤ x.toNat := by
            simp only [isDigit, decide_eq_true_eq] at digit
            exact digit.1
          unfold ctod
          omega
        rw [if_pos digit, cInt_step, value, ih]
        simp [digit]
      · rw [if_neg digit]
        simp [digit]

theorem dropWhile_isDigit {fmt : List Byte}
    (none : ¬ fmt.head?.any isDigit) : fmt.dropWhile isDigit = fmt := by
  cases fmt with
  | nil => rfl
  | cons x fmt => exact List.dropWhile_cons_of_neg (by simpa using none)

/-- The scanner reads the directive, in the arithmetic of an `int`. -/
theorem scanPrefixes_eq {fmt rest : List Byte} {d : Directive}
    (read : readDirective fmt = (d, rest)) :
    ∃ prec, scanPrefixes fmt =
      (⟨d.long, d.left, padChar d.zero, cInt (decimal d.width), prec⟩,
        rest) := by
  rcases first : accept 'l' fmt with ⟨long, fmt₁⟩
  rcases second : accept '-' fmt₁ with ⟨left, fmt₂⟩
  rcases third : accept '0' fmt₂ with ⟨zero, fmt₃⟩
  rcases fourth : accept '.' (fmt₃.dropWhile isDigit) with ⟨dot, fmt₄⟩
  simp only [readDirective, first, second, third, fourth] at read
  have width := scanDigits_eq 0 fmt₃
  rw [show cInt (0 : Nat) = 0 from rfl] at width
  have prefixes : scanPrefixes fmt =
      (⟨long, left, padChar zero, cInt (decimal (fmt₃.takeWhile isDigit)),
        (if dot ∧ fmt₄.head?.any isDigit then scanDigits 0 fmt₄
          else (-1, fmt₄)).1⟩,
        (if dot ∧ fmt₄.head?.any isDigit then scanDigits 0 fmt₄
          else (-1, fmt₄)).2) := by
    simp only [scanPrefixes, first, second, third, width, fourth]
    rfl
  rw [prefixes]
  cases dot with
  | true =>
      cases read
      refine ⟨_, congrArg _ ?_⟩
      by_cases more : fmt₄.head?.any isDigit
      · rw [if_pos ⟨rfl, more⟩]
        exact congrArg Prod.snd (scanDigits_eq 0 fmt₄)
      · rw [if_neg (fun both => more both.2)]
        exact (dropWhile_isDigit more).symm
  | false =>
      cases read
      exact ⟨_, rfl⟩

/-! The text of a directive, as the language has it and as it is printed. -/

def negative (signed : Bool) (word : Word) : Bool :=
  signed ∧ word.toInt < 0

def magnitude (signed : Bool) (word : Word) : Nat :=
  if signed then word.toInt.natAbs else word.toNat

/-- The text of an item, given the digits of a number and what the digits of a
width come to. -/
def Item.text (digits : Nat → Bool → Nat → List Byte)
    (width : List Byte → Int) : Item → List Byte
  | .literal run => run
  | .truncated _ => []
  | .directive d c arg =>
      match meaning c with
      | .number base signed upcase =>
          pad d.left d.zero (width d.width) (sign (negative signed arg.word))
            (digits base upcase (magnitude signed arg.word))
      | .char =>
          pad d.left false (width d.width) [] [arg.word.setWidth 8]
      | .string => pad d.left false (width d.width) [] arg.string.bytes
      | .other => [c]

def Item.rendering : Item → List Byte :=
  Item.text numeral fun digits => decimal digits

/-- Only the bases with a helper get digits, and the width is an `int`. -/
def Item.printed : Item → List Byte :=
  Item.text digitsOf fun digits => cInt (decimal digits)

/-- The calls of `output` for an item that fits into the buffer. -/
def Item.calls : Item → List (List Byte)
  | .truncated _ => []
  | item => [item.printed]

/-- What printing an item does to the buffer. -/
def Item.Writes (buf now : Buffer Byte) : Item → Prop
  | .directive d c arg =>
      if takesArg c then Prints buf now (Item.directive d c arg).printed
      else now = buf
  | _ => now = buf

/-- The printing of items, given the buffer and the calls of `output` so
far. -/
inductive Runs : List Item → Buffer Byte → List (List Byte) → Outcome → Prop
  | done {buf : Buffer Byte} {calls : List (List Byte)} :
      Runs [] buf calls ⟨false, calls ++ [[0]], buf⟩
  | call {item : Item} {items : List Item} {buf now : Buffer Byte}
      {calls : List (List Byte)} {outcome : Outcome}
      (writes : item.Writes buf now) (fits : item.printed.length ≤ lpMaxBuf)
      (rest : Runs items now (calls ++ item.calls) outcome) :
      Runs (item :: items) buf calls outcome
  | hang {item : Item} {items : List Item} {buf now : Buffer Byte}
      {calls : List (List Byte)} (writes : item.Writes buf now)
      (long : lpMaxBuf < item.printed.length) :
      Runs (item :: items) buf calls ⟨true, calls ++ [theFatalMsg], now⟩

theorem toNat_magnitude (signed : Bool) (word : Word) :
    (if negative signed word then -word else word).toNat =
      magnitude signed word := by
  have value := BitVec.toInt_eq_toNat_cond word
  have bound := word.isLt
  cases signed with
  | false => rfl
  | true =>
      by_cases below : word.toInt < 0
      · rw [if_pos (by simp [negative, below]), magnitude, if_pos rfl,
          BitVec.toNat_neg]
        split at value <;> omega
      · rw [if_neg (by simp [negative, below]), magnitude, if_pos rfl]
        split at value <;> omega

theorem State.outputBuf_eq (s : State) {now : Buffer Byte}
    {text : List Byte} (prints : Prints s.buf now text) :
    s.outputBuf (text.length, now) =
      State.output ⟨s.fmt, fun n => s.ap (n + 1), now, s.calls⟩ text
        text.length := by
  rw [State.outputBuf, Int.toNat_natCast, prints.slice]

theorem State.printNumber_eq (s : State) (p : Prefixes) (base : Nat)
    (signed upcase : Bool) :
    s.printNumber p base signed upcase =
      (printNum s.buf
        (if negative signed (s.ap 0).word then -(s.ap 0).word
          else (s.ap 0).word) base (negative signed (s.ap 0).word) p.width
        p.ladjust p.padc upcase).map s.outputBuf := rfl

/-- A directive writes its text into the buffer and hands it on. -/
theorem State.directive_printed {s : State} {d : Directive} {c : Byte}
    {tail : List Byte} (read : readDirective s.fmt = (d, c :: tail)) :
    ∃ now, (Item.directive d c (s.ap 0)).Writes s.buf now ∧
      s.directive = some (
        State.output
          ⟨tail, if takesArg c then fun n => s.ap (n + 1) else s.ap, now,
            s.calls⟩
          (Item.directive d c (s.ap 0)).printed
          (Item.directive d c (s.ap 0)).printed.length) := by
  obtain ⟨prec, scanned⟩ := scanPrefixes_eq read
  rw [State.directive, scanned]
  simp only [conversion_eq_meaning]
  rcases kind : meaning c with ⟨base, signed, upcase⟩ | _ | _ | _
  all_goals simp only [Item.Writes, Item.printed, Item.text, takesArg, kind]
  · obtain ⟨now, returned, prints⟩ := printNum_prints s.buf
      (if negative signed (s.ap 0).word then -(s.ap 0).word
        else (s.ap 0).word) base (negative signed (s.ap 0).word)
      (cInt (decimal d.width)) d.left d.zero upcase
    rw [toNat_magnitude] at returned prints
    refine ⟨now, prints, ?_⟩
    rw [State.printNumber_eq, returned, Option.map_some,
      State.outputBuf_eq { s with fmt := tail } prints]
    rfl
  · obtain ⟨now, returned, prints⟩ := printChar_prints s.buf
      ((s.ap 0).word.setWidth 8) (cInt (decimal d.width)) d.left
    refine ⟨now, prints, ?_⟩
    rw [State.printChar, returned,
      State.outputBuf_eq { s with fmt := tail } prints]
    rfl
  · obtain ⟨now, returned, prints⟩ := printString_prints s.buf
      (s.ap 0).string (cInt (decimal d.width)) d.left
    refine ⟨now, prints, ?_⟩
    rw [State.printString, returned,
      State.outputBuf_eq { s with fmt := tail } prints]
    rfl
  · exact ⟨s.buf, rfl, rfl⟩

/-! The loop. -/

section Loop

variable {fuel : Nat} {s : State}

theorem State.output_fits {text : List Byte}
    (fits : text.length ≤ lpMaxBuf) :
    s.output text text.length =
      .inl { s with calls := s.calls ++ [text] } := by
  rw [State.output, if_neg (by omega)]

theorem State.output_long {text : List Byte}
    (long : ¬ text.length ≤ lpMaxBuf) :
    s.output text text.length =
      .inr ⟨true, s.calls ++ [theFatalMsg], s.buf⟩ := by
  rw [State.output, if_pos (by omega)]

theorem lpPrintLoop_long
    (long : ¬ (s.fmt.takeWhile (· ≠ chr '%')).length ≤ lpMaxBuf) :
    lpPrintLoop (fuel + 1) s =
      some ⟨true, s.calls ++ [theFatalMsg], s.buf⟩ := by
  rw [lpPrintLoop, State.flush, State.output_long long]

theorem lpPrintLoop_stop
    (fits : (s.fmt.takeWhile (· ≠ chr '%')).length ≤ lpMaxBuf)
    (stop : s.fmt.dropWhile (· ≠ chr '%') = []) :
    lpPrintLoop (fuel + 1) s =
      some ⟨false, s.calls ++ [s.fmt.takeWhile (· ≠ chr '%')] ++ [[0]],
        s.buf⟩ := by
  rw [lpPrintLoop, State.flush, State.output_fits fits, stop]
  rfl

theorem lpPrintLoop_directive (fuel : Nat) {rest : List Byte}
    {next : State ⊕ Outcome}
    (fits : (s.fmt.takeWhile (· ≠ chr '%')).length ≤ lpMaxBuf)
    (percent : s.fmt.dropWhile (· ≠ chr '%') = chr '%' :: rest)
    (directive : State.directive ⟨rest, s.ap, s.buf,
      s.calls ++ [s.fmt.takeWhile (· ≠ chr '%')]⟩ = some next) :
    lpPrintLoop (fuel + 1) s = next.elim (lpPrintLoop fuel) some := by
  rw [lpPrintLoop, State.flush, State.output_fits fits, percent]
  simp only [directive]
  cases next <;> rfl

theorem State.directive_truncated {d : Directive}
    (read : readDirective s.fmt = (d, [])) :
    s.directive = some (.inl { s with fmt := [] }) := by
  obtain ⟨prec, scanned⟩ := scanPrefixes_eq read
  rw [State.directive, scanned]

/-- `lp_Print` goes through the items of its format string. -/
theorem lpPrintLoop_runs (enough : s.fmt.length < fuel) :
    ∃ outcome, lpPrintLoop fuel s = some outcome ∧
      Runs (itemsWithin fuel s.fmt s.ap) s.buf s.calls outcome := by
  induction fuel generalizing s with
  | zero => exact absurd enough (Nat.not_lt_zero _)
  | succ fuel ih =>
      by_cases long : ¬ (s.fmt.takeWhile (· ≠ chr '%')).length ≤ lpMaxBuf
      · exact ⟨_, lpPrintLoop_long long, .hang rfl (Int.not_le.mp long)⟩
      have fits := not_not.mp long
      rcases run_append s.fmt with ⟨stop, _⟩ | ⟨rest, percent, less, _⟩
      · rw [itemsWithin_stop stop]
        exact ⟨_, lpPrintLoop_stop fits stop, .call rfl fits .done⟩
      · have shorter := length_readDirective_le rest
        rcases read : readDirective rest with ⟨d, tail⟩
        rw [read] at shorter
        cases tail with
        | nil =>
            have step := lpPrintLoop_directive fuel fits percent
              (State.directive_truncated read)
            obtain ⟨outcome, returned, runs⟩ := ih
              (s := ⟨[], s.ap, s.buf,
                s.calls ++ [s.fmt.takeWhile (· ≠ chr '%')]⟩)
              (by simp; omega)
            rw [itemsWithin_truncated percent read]
            refine ⟨outcome, step.trans returned, .call rfl fits ?_⟩
            refine .call rfl (show (0 : Int) ≤ 256 by decide) ?_
            rw [Item.calls, List.append_nil]
            exact runs
        | cons c tail =>
            rw [itemsWithin_directive percent read]
            rw [List.length_cons] at shorter
            obtain ⟨now, writes, directive⟩ :=
              State.directive_printed
                (s := ⟨rest, s.ap, s.buf,
                  s.calls ++ [s.fmt.takeWhile (· ≠ chr '%')]⟩) read
            have step := lpPrintLoop_directive fuel fits percent
              directive
            by_cases small :
                (Item.directive d c (s.ap 0)).printed.length ≤ lpMaxBuf
            · rw [State.output_fits small] at step
              obtain ⟨outcome, returned, runs⟩ := ih
                (s := ⟨tail,
                  if takesArg c then fun n => s.ap (n + 1) else s.ap, now,
                  s.calls ++ [s.fmt.takeWhile (· ≠ chr '%')] ++
                    [(Item.directive d c (s.ap 0)).printed]⟩)
                (show tail.length < fuel by omega)
              exact ⟨outcome, step.trans returned, .call rfl fits
                (.call writes small runs)⟩
            · rw [State.output_long small] at step
              exact ⟨_, step, .call rfl fits
                (.hang writes (Int.not_le.mp small))⟩

end Loop

end AuxLoader.Printf
