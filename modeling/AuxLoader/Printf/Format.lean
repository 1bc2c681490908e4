import AuxLoader.Data.CString
import AuxLoader.Printf.Number

namespace AuxLoader.Printf

open Data

/-! `lp_Print` of `printf.c`. -/

def lpMaxBuf : Int := 256

/-- What the arithmetic of an `int` comes to. -/
def cInt (n : Int) : Int := n.bmod (2 ^ 32)

def isDigit (x : Byte) : Bool := chr '0' ≤ x ∧ x ≤ chr '9'

def ctod (x : Byte) : Int := x.toNat - (chr '0').toNat

def theFatalMsg : List Byte := (CString.lit "fatal error in lp_Print!").bytes

def printChar (buf : Buffer Byte) (c : Byte) (length : Int) (ladjust : Bool) :
    Int × Buffer Byte :=
  let length := if length < 1 then 1 else length
  let buf :=
    if ladjust then (buf.put 0 c).fill (fun _ => chr ' ') 1 length
    else (buf.fill (fun _ => chr ' ') 0 (length - 1)).put (length - 1) c
  (length, buf)

def printString (buf : Buffer Byte) (s : CString) (length : Int)
    (ladjust : Bool) : Int × Buffer Byte :=
  let char (i : Int) : Byte := s.bytes.getD i.toNat 0
  let len : Int := s.bytes.length
  let length := if length < len then len else length
  let buf :=
    if ladjust then
      (buf.fill char 0 len).fill (fun _ => chr ' ') len length
    else
      (buf.fill (fun _ => chr ' ') 0 (length - len)).fill
        (fun i => char (i - length + len)) (length - len) length
  (length, buf)

/-- An argument slot, read as a number or as a pointer to a string. No object
is so large that an `int` cannot count it. -/
structure Arg where
  word : Word
  string : CString
  short : string.bytes.length < 2 ^ 31

/-- An argument that is read as a number. -/
def Arg.number (word : Word) : Arg := ⟨word, .lit "", by decide⟩

/-- `if (*fmt == c) fmt++` -/
def accept (c : Char) : List Byte → Bool × List Byte
  | [] => (false, [])
  | x :: fmt => if x = chr c then (true, fmt) else (false, x :: fmt)

/-- `while (IsDigit(*fmt)) n = 10 * n + Ctod(*fmt++)` -/
def scanDigits : Int → List Byte → Int × List Byte
  | n, [] => (n, [])
  | n, x :: fmt =>
      if isDigit x then scanDigits (cInt (10 * n + ctod x)) fmt
      else (n, x :: fmt)

structure Prefixes where
  longFlag : Bool
  ladjust : Bool
  padc : Byte
  width : Int
  prec : Int

/-- From behind the `%` to the conversion. -/
def scanPrefixes (fmt : List Byte) : Prefixes × List Byte :=
  let (longFlag, fmt) := accept 'l' fmt
  let (ladjust, fmt) := accept '-' fmt
  let (zero, fmt) := accept '0' fmt
  let padc := if zero then chr '0' else chr ' '
  let (width, fmt) := scanDigits 0 fmt
  let (dot, fmt) := accept '.' fmt
  let (prec, fmt) :=
    if dot ∧ fmt.head?.any isDigit then scanDigits 0 fmt else (-1, fmt)
  (⟨longFlag, ladjust, padc, width, prec⟩, fmt)

inductive Conversion where
  | number (base : Nat) (signed upcase : Bool)
  | char
  | string
  | other
  deriving DecidableEq

/-- The cases of the `switch`. -/
def conversion (c : Byte) : Conversion :=
  if c = chr 'b' then .number 2 false false
  else if c = chr 'd' ∨ c = chr 'D' then .number 10 true false
  else if c = chr 'o' ∨ c = chr 'O' then .number 8 false false
  else if c = chr 'u' ∨ c = chr 'U' then .number 10 false false
  else if c = chr 'x' then .number 16 false false
  else if c = chr 'X' then .number 16 false true
  else if c = chr 'c' then .char
  else if c = chr 's' then .string
  else .other

structure State where
  fmt : List Byte
  ap : Nat → Arg
  buf : Buffer Byte
  calls : List (List Byte)

/-- How `lp_Print` ends, what `output` has been called with, and the buffer. -/
structure Outcome where
  hangs : Bool
  calls : List (List Byte)
  buf : Buffer Byte

/-- `OUTPUT`, which comes back only if the length is in range. -/
def State.output (s : State) (text : List Byte) (l : Int) : State ⊕ Outcome :=
  if l < 0 ∨ l > lpMaxBuf then .inr ⟨true, s.calls ++ [theFatalMsg], s.buf⟩
  else .inl { s with calls := s.calls ++ [text] }

def State.flush (s : State) : State ⊕ Outcome :=
  let run := s.fmt.takeWhile (· ≠ chr '%')
  { s with fmt := s.fmt.dropWhile (· ≠ chr '%') }.output run run.length

/-- `OUTPUT` of what has been printed for the next argument. -/
def State.outputBuf (s : State) (printed : Int × Buffer Byte) :
    State ⊕ Outcome :=
  let (length, buf) := printed
  { s with ap := fun n => s.ap (n + 1), buf }.output (buf.slice length.toNat)
    length

/-- `long` is no wider than `int`, so the flag decides nothing. -/
def State.printNumber (s : State) (p : Prefixes) (base : Nat)
    (signed upcase : Bool) : Option (State ⊕ Outcome) :=
  let num := (s.ap 0).word
  let negFlag : Bool := signed ∧ num.toInt < 0
  let num := if negFlag then -num else num
  (printNum s.buf num base negFlag p.width p.ladjust p.padc upcase).map
    s.outputBuf

def State.printChar (s : State) (p : Prefixes) : State ⊕ Outcome :=
  let c := (s.ap 0).word.setWidth 8
  s.outputBuf (Printf.printChar s.buf c p.width p.ladjust)

def State.printString (s : State) (p : Prefixes) : State ⊕ Outcome :=
  let string := (s.ap 0).string
  s.outputBuf (Printf.printString s.buf string p.width p.ladjust)

/-- From behind the `%` to the next round. At the end of the string the pointer
goes back one character and forward again. -/
def State.directive (s : State) : Option (State ⊕ Outcome) :=
  let (p, fmt) := scanPrefixes s.fmt
  match fmt with
  | [] => some (.inl { s with fmt := [] })
  | c :: fmt =>
      let s := { s with fmt }
      match conversion c with
      | .number base signed upcase => s.printNumber p base signed upcase
      | .char => some (s.printChar p)
      | .string => some (s.printString p)
      | .other => some (s.output [c] 1)

/-- The special termination call. -/
def State.finish (s : State) : Outcome :=
  match s.output [0] 1 with
  | .inl s => ⟨false, s.calls, s.buf⟩
  | .inr outcome => outcome

def lpPrintLoop : Nat → State → Option Outcome
  | 0, _ => none
  | fuel + 1, s =>
      match s.flush with
      | .inr outcome => some outcome
      | .inl s =>
          match s.fmt with
          | [] => some s.finish
          | _ :: fmt => do
              match ← { s with fmt }.directive with
              | .inr outcome => some outcome
              | .inl s => lpPrintLoop fuel s

/-- `lp_Print`, with a buffer that holds what the stack left there. -/
def lpPrint (fmt : CString) (ap : Nat → Arg) (stack : Int → Byte) :
    Option Outcome :=
  lpPrintLoop (fmt.bytes.length + 1) ⟨fmt.bytes, ap, ⟨stack, []⟩, []⟩

/-! The printers of characters and strings. -/

theorem printChar_prints (buf : Buffer Byte) (c : Byte) (width : Int)
    (left : Bool) :
    ∃ now, printChar buf c width left =
        (((pad left false width [] [c]).length : Int), now) ∧
      Prints buf now (pad left false width [] [c]) := by
  let room := width.toNat - 1
  have length : (if width < 1 then 1 else width) = (1 + room : Nat) := by
    split <;> omega
  have result : (printChar buf c width left).1 =
      ((pad left false width [] [c]).length : Int) := by
    rw [length_pad]
    exact length.trans (by simp; omega)
  refine ⟨(printChar buf c width left).2, Prod.ext result rfl, ?_⟩
  cases left with
  | true =>
      have printed := ((Prints.nil buf).put c).fill_const (chr ' ') room
      have layout : (printChar buf c width true).2 =
          (buf.put 0 c).fill (fun _ => chr ' ') 1 (1 + room : Nat) :=
        congrArg ((buf.put 0 c).fill (fun _ => chr ' ') 1) length
      rw [layout]
      simpa [pad, room] using printed
  | false =>
      have printed := ((Prints.nil buf).fill_const (chr ' ') room).put c
      have last : (if width < 1 then 1 else width) - 1 = (room : Int) := by
        omega
      have layout : (printChar buf c width false).2 =
          (buf.fill (fun _ => chr ' ') 0 room).put room c :=
        congrArg (fun i => (buf.fill (fun _ => chr ' ') 0 i).put i c) last
      rw [layout]
      simpa [pad, room] using printed

/-- Reading the characters of a string one by one. -/
@[simp] theorem map_getD_range (bytes : List Byte) :
    (List.range bytes.length).map (fun k => bytes[k]?.getD 0#8) = bytes := by
  apply List.ext_getElem
  · simp
  · intro k _ bound
    simp [bound]

theorem printString_prints (buf : Buffer Byte) (s : CString) (width : Int)
    (left : Bool) :
    ∃ now, printString buf s width left =
        (((pad left false width [] s.bytes).length : Int), now) ∧
      Prints buf now (pad left false width [] s.bytes) := by
  let len := s.bytes.length
  let room := width.toNat - len
  let char (i : Int) : Byte := s.bytes.getD i.toNat 0
  have length : (if width < (len : Nat) then ((len : Nat) : Int) else width) =
      (len + room : Nat) :=
    justified_length len width
  have result : (printString buf s width left).1 =
      ((pad left false width [] s.bytes).length : Int) := by
    rw [length_pad]
    exact length.trans (by simp; omega)
  refine ⟨(printString buf s width left).2, Prod.ext result rfl, ?_⟩
  cases left with
  | true =>
      have copied := (Prints.nil buf).fill char len
      have printed := copied.fill_const (chr ' ') room
      have layout : (printString buf s width true).2 =
          (buf.fill char 0 len).fill (fun _ => chr ' ') len
            (len + room : Nat) :=
        congrArg ((buf.fill char 0 len).fill (fun _ => chr ' ') len) length
      rw [layout]
      simpa [pad, char, len, room] using printed
  | false =>
      have spaced := (Prints.nil buf).fill_const (chr ' ') room
      have printed := spaced.fill (fun i => char (i - room)) len
      have layout (all : Int) (whole : all = (len + room : Nat)) :
          (buf.fill (fun _ => chr ' ') 0 (all - len)).fill
              (fun i => char (i - all + len)) (all - len) all =
            (buf.fill (fun _ => chr ' ') 0 room).fill
              (fun i => char (i - room)) room (room + len : Nat) := by
        have start : all - len = room := by omega
        have stop : all = (room + len : Nat) := by omega
        have shift : (fun i => char (i - all + len)) =
            fun i => char (i - room) :=
          funext fun i => congrArg char (by omega)
        rw [start, shift, stop]
      have laid : (printString buf s width false).2 = _ := layout _ length
      rw [laid]
      simpa [pad, char, len, room] using printed

end AuxLoader.Printf
