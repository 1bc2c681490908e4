import AuxLoader.Printf.Language

namespace AuxLoader.Printf

open Data

/-! Which cells `lp_Print` writes. -/

def InBuf (i : Int) : Prop := 0 ≤ i ∧ i < lpMaxBuf

/-- Every cell that has been written belongs to `buf`. -/
def Intact (buf : Buffer Byte) : Prop := ∀ i ∈ buf.written, InBuf i

def StaysInBuf (fmt : CString) (ap : Nat → Arg) (stack : Int → Byte) : Prop :=
  ∃ outcome, lpPrint fmt ap stack = some outcome ∧
    Intact outcome.buf

/-- `OUTPUT` comes back from a literal run. -/
def Item.short : Item → Bool
  | .literal run => run.length ≤ lpMaxBuf
  | _ => true

/-- A directive that goes through the buffer has a width within it, and so has
its string. -/
def Item.Fits : Item → Prop
  | .directive d c arg => takesArg c →
      cInt (decimal d.width) ≤ lpMaxBuf ∧
        (meaning c = .string → arg.string.bytes.length ≤ lpMaxBuf)
  | _ => True

theorem magnitude_lt (signed : Bool) (word : Word) :
    magnitude signed word < 2 ^ 32 := by
  rw [← toNat_magnitude]
  exact BitVec.isLt _

theorem length_digitsOf_le (base : Nat) (upcase : Bool) {n : Nat}
    (bound : n < 2 ^ 32) : (digitsOf base upcase n).length ≤ 10 := by
  unfold digitsOf
  split
  next helper =>
    rw [numeral, List.length_map]
    rcases helper with rfl | rfl
    · exact (Nat.length_toDigits_le_iff (by decide) (by decide)).mpr (by omega)
    · exact (Nat.length_toDigits_le_iff (by decide) (by decide)).mpr (by omega)
  next => exact Nat.zero_le _

theorem Item.fits_iff {item : Item} (short : item.short) :
    item.Fits ↔ item.printed.length ≤ lpMaxBuf := by
  cases item with
  | literal run => exact iff_of_true trivial (of_decide_eq_true short)
  | truncated d => exact iff_of_true trivial (show (0 : Int) ≤ 256 by decide)
  | directive d c arg =>
      have room : lpMaxBuf = 256 := rfl
      rcases kind : meaning c with ⟨base, signed, upcase⟩ | _ | _ | _
      all_goals simp only [Item.Fits, Item.printed, Item.text, takesArg, kind,
        length_pad, List.length_singleton, List.length_nil, true_implies]
      · have digits :=
          length_digitsOf_le base upcase (magnitude_lt signed arg.word)
        have sign : (sign (negative signed arg.word)).length ≤ 1 := by
          unfold sign
          split
          · exact Nat.le_refl 1
          · exact Nat.zero_le 1
        refine ⟨fun fits => ?_, fun fits => ⟨?_, fun other => by cases other⟩⟩
        · have width := fits.1
          omega
        · omega
      · refine ⟨fun fits => ?_, fun fits => ⟨?_, fun other => by cases other⟩⟩
        · have width := fits.1
          omega
        · omega
      · refine ⟨fun fits => ?_, fun fits => ⟨?_, ?_⟩⟩
        · have width := fits.1
          have string := fits.2
          omega
        · omega
        · omega
      · exact iff_of_true (fun takes => by cases takes)
          (show (1 : Int) ≤ 256 by decide)

theorem Item.short_of_fits {item : Item}
    (fits : item.printed.length ≤ lpMaxBuf) : item.short := by
  cases item with
  | literal run => exact decide_eq_true fits
  | _ => rfl

section Intact

variable {item : Item} {items : List Item} {buf now : Buffer Byte}
  {calls : List (List Byte)} {outcome : Outcome}

theorem Item.Writes.intact_iff (writes : item.Writes buf now) :
    Intact now ↔ Intact buf ∧
      (item.short → item.printed.length ≤ lpMaxBuf) := by
  cases item with
  | literal run =>
      rw [show now = buf from writes]
      exact ⟨fun intact => ⟨intact, of_decide_eq_true⟩, And.left⟩
  | truncated d =>
      rw [show now = buf from writes]
      exact ⟨fun intact => ⟨intact, fun _ => show (0 : Int) ≤ 256 by decide⟩,
        And.left⟩
  | directive d c arg =>
      by_cases takes : takesArg c
      · have prints : Prints buf now (Item.directive d c arg).printed := by
          rwa [Item.Writes, if_pos takes] at writes
        constructor
        · intro intact
          refine ⟨fun i wrote => intact i ?_, fun _ => ?_⟩
          · exact (prints.wrote i).mpr (.inl wrote)
          · by_contra long
            have room : lpMaxBuf = 256 := rfl
            have last := (intact 256 ((prints.wrote 256).mpr
              (.inr ⟨by omega, by omega⟩))).2
            omega
        · rintro ⟨intact, fits⟩ i wrote
          rcases (prints.wrote i).mp wrote with before | ⟨least, below⟩
          · exact intact i before
          · exact ⟨least, lt_of_lt_of_le below (fits rfl)⟩
      · have other : meaning c = .other := by
          unfold takesArg at takes
          split at takes
          next other => exact other
          next => exact absurd rfl takes
        have single : (Item.directive d c arg).printed = [c] := by
          simp only [Item.printed, Item.text, other]
        rw [show now = buf by rwa [Item.Writes, if_neg takes] at writes,
          single]
        exact ⟨fun intact => ⟨intact, fun _ => show (1 : Int) ≤ 256 by decide⟩,
          And.left⟩

/-- Only what precedes the first long run is printed. -/
theorem Runs.intact_iff (runs : Runs items buf calls outcome) :
    Intact outcome.buf ↔ Intact buf ∧
      ∀ item ∈ items.takeWhile Item.short,
        item.printed.length ≤ lpMaxBuf := by
  induction runs with
  | done => simp
  | @call item items buf now calls outcome writes fits rest ih =>
      rw [ih, writes.intact_iff,
        List.takeWhile_cons_of_pos (Item.short_of_fits fits),
        List.forall_mem_cons]
      simp [fits]
  | @hang item items buf now calls writes long =>
      rw [writes.intact_iff]
      by_cases short : item.short
      · rw [List.takeWhile_cons_of_pos short, List.forall_mem_cons]
        exact iff_of_false (fun both => absurd (both.2 short) (not_le.mpr long))
          (fun both => absurd both.2.1 (not_le.mpr long))
      · rw [List.takeWhile_cons_of_neg short]
        simp [short]

end Intact

theorem lpPrint_runs (fmt : CString) (ap : Nat → Arg) (stack : Int → Byte) :
    ∃ outcome, lpPrint fmt ap stack = some outcome ∧
      Runs (items fmt ap) ⟨stack, []⟩ [] outcome :=
  lpPrintLoop_runs (s := ⟨fmt.bytes, ap, ⟨stack, []⟩, []⟩)
    (Nat.lt_succ_self fmt.bytes.length)

theorem staysInBuf_iff_printed (fmt : CString) (ap : Nat → Arg)
    (stack : Int → Byte) :
    StaysInBuf fmt ap stack ↔
      ∀ item ∈ (items fmt ap).takeWhile Item.short,
        item.printed.length ≤ lpMaxBuf := by
  obtain ⟨outcome, returned, runs⟩ := lpPrint_runs fmt ap stack
  have fresh : Intact ⟨stack, []⟩ := fun i wrote => absurd wrote (by simp)
  have intact := runs.intact_iff
  rw [and_iff_right fresh] at intact
  rw [← intact, StaysInBuf, returned]
  simp

theorem lpPrint_staysInBuf_iff (fmt : CString) (ap : Nat → Arg)
    (stack : Int → Byte) :
    StaysInBuf fmt ap stack ↔
      ∀ item ∈ (items fmt ap).takeWhile Item.short, item.Fits := by
  rw [staysInBuf_iff_printed]
  refine forall₂_congr fun item member => ?_
  exact (Item.fits_iff (List.mem_takeWhile_imp member)).symm

theorem lpPrint_overruns_wide :
    ¬ StaysInBuf (.lit "%300d") (fun _ => .number 0) (fun _ => 0) := by
  intro stays
  rw [staysInBuf_iff_printed] at stays
  have wide : 300 ∈ ((items (.lit "%300d") fun _ => .number 0).takeWhile
      Item.short).map fun item => item.printed.length := by
    decide +kernel
  obtain ⟨item, member, length⟩ := List.mem_map.mp wide
  exact absurd (stays item member) (by rw [length]; decide)

end AuxLoader.Printf
