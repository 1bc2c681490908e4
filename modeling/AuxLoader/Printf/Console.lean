import AuxLoader.Printf.Rendering
import AuxLoader.Uart

namespace AuxLoader.Printf

open Data Uart

/-! `printf`, from the format string to the serial line. -/

section Code

variable (base : Word) (status : Nat → Word → Word) (fuel : Nat)

/-- One round of `printf_output`. -/
def putChar (c : Byte) (s : Line) : Option Line := do
  let s ← serialPutc base status fuel c s
  if c = lineFeed then serialPutc base status fuel carriageReturn s else some s

def putChars : List Byte → Line → Option Line
  | [], s => some s
  | c :: rest, s => do
      let s ← putChar base status fuel c s
      putChars rest s

/-- The special termination call puts out nothing. -/
def printfOutput (text : List Byte) (s : Line) : Option Line :=
  if text = [0] then some s else putChars base status fuel text s

def printfCalls (calls : List (List Byte)) (s : Line) : Option Line :=
  calls.foldlM (fun s text => printfOutput base status fuel text s) s

/-- What `lp_Print` does never depends on what has been put out, so its calls
are made one after the other; also whether it hangs. -/
def printf (fmt : CString) (ap : Nat → Arg) (stack : Int → Byte) (s : Line) :
    Option (Bool × Line) := do
  let outcome ← lpPrint fmt ap stack
  let s ← printfCalls base status fuel outcome.calls s
  return (outcome.hangs, s)

end Code

/-- What a character looks like on the line. -/
def consoleChar (c : Byte) : List Byte :=
  if c = lineFeed then [c, carriageReturn] else [c]

/-- What a call of `output` puts on the line. -/
def consoleCall (text : List Byte) : List Byte :=
  if text = [0] then [] else text.flatMap consoleChar

section Line

variable {base : Word} {status : Nat → Word → Word} {fuel : Nat} {s t : Line}

theorem putChar_sends (on : base ≠ 0) {c : Byte}
    (puts : putChar base status fuel c s = some t) :
    ∃ events, t.log = s.log ++ events ∧ Sends base (consoleChar c) events := by
  obtain ⟨u, first, puts⟩ := Option.bind_eq_some_iff.mp puts
  obtain ⟨one, firstLog, sends⟩ := serialPutc_sends on first
  unfold consoleChar
  split at puts
  next feed =>
    obtain ⟨two, secondLog, returns⟩ := serialPutc_sends on puts
    refine ⟨one ++ two, ?_, if_pos feed ▸ sends.append returns⟩
    rw [secondLog, firstLog, List.append_assoc]
  next other =>
    cases puts
    exact ⟨one, firstLog, if_neg other ▸ sends⟩

theorem putChars_sends (on : base ≠ 0) {text : List Byte}
    (puts : putChars base status fuel text s = some t) :
    ∃ events, t.log = s.log ++ events ∧
      Sends base (text.flatMap consoleChar) events := by
  induction text generalizing s with
  | nil =>
      cases puts
      exact ⟨[], (List.append_nil _).symm, .nil⟩
  | cons c rest ih =>
      obtain ⟨u, first, puts⟩ := Option.bind_eq_some_iff.mp puts
      obtain ⟨one, firstLog, sends⟩ := putChar_sends on first
      obtain ⟨more, log, later⟩ := ih puts
      refine ⟨one ++ more, ?_, ?_⟩
      · rw [log, firstLog, List.append_assoc]
      · rw [List.flatMap_cons]
        exact sends.append later

theorem printfOutput_sends (on : base ≠ 0) {text : List Byte}
    (puts : printfOutput base status fuel text s = some t) :
    ∃ events, t.log = s.log ++ events ∧
      Sends base (consoleCall text) events := by
  unfold printfOutput at puts
  unfold consoleCall
  split at puts
  next last =>
    cases puts
    rw [if_pos last]
    exact ⟨[], (List.append_nil _).symm, .nil⟩
  next more =>
    rw [if_neg more]
    exact putChars_sends on puts

theorem printfCalls_sends (on : base ≠ 0) {calls : List (List Byte)}
    (puts : printfCalls base status fuel calls s = some t) :
    ∃ events, t.log = s.log ++ events ∧
      Sends base (calls.flatMap consoleCall) events := by
  induction calls generalizing s with
  | nil =>
      cases puts
      exact ⟨[], (List.append_nil _).symm, .nil⟩
  | cons text calls ih =>
      obtain ⟨u, first, later⟩ := Option.bind_eq_some_iff.mp puts
      obtain ⟨one, firstLog, sends⟩ := printfOutput_sends on first
      obtain ⟨more, log, others⟩ := ih later
      refine ⟨one ++ more, ?_, sends.append others⟩
      rw [log, firstLog, List.append_assoc]

theorem putChar_returns (live : Live base status) (c : Byte) (s : Line) :
    ∃ t enough, ∀ fuel, enough ≤ fuel →
      putChar base status fuel c s = some t := by
  obtain ⟨u, first, puts⟩ := serialPutc_returns live c s
  by_cases feed : c = lineFeed
  · obtain ⟨t, second, returns⟩ := serialPutc_returns live carriageReturn u
    refine ⟨t, max first second, fun fuel more => ?_⟩
    exact Option.bind_eq_some_iff.mpr ⟨u, puts fuel (by omega),
      (if_pos feed).trans (returns fuel (by omega))⟩
  · refine ⟨u, first, fun fuel more => ?_⟩
    exact Option.bind_eq_some_iff.mpr ⟨u, puts fuel more, if_neg feed⟩

theorem putChars_returns (live : Live base status) (text : List Byte)
    (s : Line) :
    ∃ t enough, ∀ fuel, enough ≤ fuel →
      putChars base status fuel text s = some t := by
  induction text generalizing s with
  | nil => exact ⟨s, 0, fun _ _ => rfl⟩
  | cons c rest ih =>
      obtain ⟨u, first, puts⟩ := putChar_returns live c s
      obtain ⟨t, second, others⟩ := ih u
      refine ⟨t, max first second, fun fuel more => ?_⟩
      exact Option.bind_eq_some_iff.mpr
        ⟨u, puts fuel (by omega), others fuel (by omega)⟩

theorem printfOutput_returns (live : Live base status) (text : List Byte)
    (s : Line) :
    ∃ t enough, ∀ fuel, enough ≤ fuel →
      printfOutput base status fuel text s = some t := by
  by_cases last : text = [0]
  · exact ⟨s, 0, fun _ _ => if_pos last⟩
  · obtain ⟨t, enough, puts⟩ := putChars_returns live text s
    exact ⟨t, enough, fun fuel more => (if_neg last).trans (puts fuel more)⟩

theorem printfCalls_returns (live : Live base status)
    (calls : List (List Byte)) (s : Line) :
    ∃ t enough, ∀ fuel, enough ≤ fuel →
      printfCalls base status fuel calls s = some t := by
  induction calls generalizing s with
  | nil => exact ⟨s, 0, fun _ _ => rfl⟩
  | cons text calls ih =>
      obtain ⟨u, first, puts⟩ := printfOutput_returns live text s
      obtain ⟨t, second, others⟩ := ih u
      refine ⟨t, max first second, fun fuel more => ?_⟩
      exact Option.bind_eq_some_iff.mpr
        ⟨u, puts fuel (by omega), others fuel (by omega)⟩

end Line

/-- What an item comes to on the line: a NUL that makes up a whole item gets
lost. -/
def Item.console (item : Item) : List Byte := consoleCall item.rendering

theorem Item.console_calls (item : Item) :
    item.calls.flatMap consoleCall = consoleCall item.printed := by
  cases item with
  | truncated d => rfl
  | literal run => exact List.flatMap_singleton consoleCall _
  | directive d c arg => exact List.flatMap_singleton consoleCall _

/-- With nothing that lacks its digits, the calls put out what the items come
to. -/
theorem flatMap_consoleCall {items : List Item}
    (admissible : ∀ item ∈ items, item.Admissible)
    (spelled : ∀ item ∈ items, item.Spelled) :
    (items.flatMap Item.calls ++ [[0]]).flatMap consoleCall =
      items.flatMap Item.console := by
  have last : [[0]].flatMap consoleCall = [] := rfl
  rw [List.flatMap_append, last, List.append_nil, List.flatMap_assoc]
  refine List.flatMap_congr fun item member => ?_
  rw [Item.console_calls, Item.console,
    (Item.printed_eq_iff (admissible item member)).mpr (spelled item member)]

/-- With a device that gets ready again and again, `printf` returns; it has put
on the line what the format asks for, each line feed with a carriage return
after it, and has kept to the protocol of the device. -/
theorem printf_sends {base : Word} {status : Nat → Word → Word}
    (on : base ≠ 0) (live : Live base status) (fmt : CString) (ap : Nat → Arg)
    (stack : Int → Byte) (s : Line)
    (admissible : ∀ item ∈ items fmt ap, item.Admissible)
    (spelled : ∀ item ∈ items fmt ap, item.Spelled) :
    ∃ t events, (∃ enough, ∀ fuel, enough ≤ fuel →
        printf base status fuel fmt ap stack s = some (false, t)) ∧
      t.log = s.log ++ events ∧
      (∀ noChars, transmitted base noChars events =
        (items fmt ap).flatMap Item.console) ∧
      ∀ last, Handshakes base last events := by
  obtain ⟨outcome, returned, runs⟩ := lpPrint_runs fmt ap stack
  obtain ⟨returns, calls⟩ :=
    runs.calls_eq fun item member => (admissible item member).fits
  obtain ⟨t, enough, puts⟩ := printfCalls_returns live outcome.calls s
  obtain ⟨events, log, sends⟩ :=
    printfCalls_sends on (puts enough (Nat.le_refl _))
  rw [calls, List.nil_append, flatMap_consoleCall admissible spelled] at sends
  refine ⟨t, events, ⟨enough, fun fuel more => ?_⟩, log, sends.transmitted_eq,
    sends.keeps⟩
  refine Option.bind_eq_some_iff.mpr ⟨outcome, returned,
    Option.bind_eq_some_iff.mpr ⟨t, puts fuel more, ?_⟩⟩
  rw [returns]
  rfl

theorem printf_sends_decimal :
    ∃ t events, (∃ enough, ∀ fuel, enough ≤ fuel →
        printf 0x78b0000 (fun _ _ => 0x84) fuel (.lit "%4d\n")
          (fun _ => .number (-7)) (fun _ => 0) ⟨0, []⟩ = some (false, t)) ∧
      t.log = [] ++ events ∧
      (∀ noChars, transmitted 0x78b0000 noChars events =
        (items (.lit "%4d\n") fun _ => .number (-7)).flatMap Item.console) ∧
      ∀ last, Handshakes 0x78b0000 last events :=
  printf_sends (by decide) (fun _ => ⟨⟨0, by decide⟩, 0, by decide⟩)
    (.lit "%4d\n") (fun _ => .number (-7)) (fun _ => 0) ⟨0, []⟩
    (by decide +kernel) (by decide +kernel)

end AuxLoader.Printf
