import AuxLoader.Loader

namespace AuxLoader.Fit

open Data Fdt

/-! What the FIT handler has checked when it goes on, and what it then does. -/

theorem bind_eq_ok {α β : Type} {first : Checked α} {next : α → Checked β}
    {b : β} :
    (first >>= next).run = some (.ok b) ↔
      ∃ a, first.run = some (.ok a) ∧ (next a).run = some (.ok b) := by
  change (first.run.bind (ExceptT.bindCont next)) = some (.ok b) ↔ _
  rw [Option.bind_eq_some_iff]
  constructor
  · rintro ⟨result, returned, onward⟩
    cases result with
    | error code => cases onward
    | ok a => exact ⟨a, returned, onward⟩
  · rintro ⟨a, returned, onward⟩
    exact ⟨.ok a, returned, onward⟩

/-- How checks may end that do not succeed: with such a code, or not at all,
for such a reason. -/
structure Fails {α : Type} (error : Int → Prop) (hangs : Prop)
    (checks : Checked α) : Prop where
  error : ∀ code, checks.run = some (.error code) → error code
  hangs : checks.run = none → hangs

section Failures

variable {α β : Type} {error : Int → Prop} {hangs : Prop}

theorem Fails.pure (a : α) : Fails error hangs (Pure.pure a : Checked α) where
  error := nofun
  hangs := nofun

theorem Fails.throw {code : Int} (allowed : error code) :
    Fails error hangs (throw code : Checked α) where
  error other thrown := by
    cases thrown
    exact allowed
  hangs := nofun

theorem Fails.bind {first : Checked α} {next : α → Checked β}
    (early : Fails error hangs first)
    (late : ∀ a, Fails error hangs (next a)) :
    Fails error hangs (first >>= next) := by
  have split : (first >>= next).run =
      first.run.bind (ExceptT.bindCont next) := rfl
  constructor
  · intro code thrown
    rw [split] at thrown
    obtain ⟨result, returned, onward⟩ := Option.bind_eq_some_iff.mp thrown
    cases result with
    | error other =>
        cases onward
        exact early.error code returned
    | ok a => exact (late a).error code onward
  · intro endless
    rw [split] at endless
    cases returned : first.run with
    | none => exact early.hangs returned
    | some result =>
        rw [returned] at endless
        cases result with
        | error _ => cases endless
        | ok a => exact (late a).hangs endless

theorem fitProp_fails {mem : Memory} {data : Word}
    {nodeName propName : CString} {code : Int} (allowed : error code)
    (endless : (fdtGetProp mem data nodeName propName).val = none → hangs) :
    Fails error hangs (fitProp mem data nodeName propName code) := by
  unfold fitProp
  cases returned : (fdtGetProp mem data nodeName propName).val with
  | none =>
      exact ⟨nofun, fun _ => endless returned⟩
  | some r =>
      by_cases null : r.ptr = 0
      · simp only [if_pos null]
        exact .throw allowed
      · simp only [if_neg null]
        exact .pure r

end Failures

theorem fitProp_eq_ok {mem : Memory} {data : Word}
    {nodeName propName : CString} {code : Int} {r : PropResult} :
    (fitProp mem data nodeName propName code).run = some (.ok r) ↔
      (fdtGetProp mem data nodeName propName).val = some r ∧ r.ptr ≠ 0 := by
  unfold fitProp
  cases (fdtGetProp mem data nodeName propName).val with
  | none => exact iff_of_false (fun h => by cases h) (fun h => by cases h.1)
  | some q =>
      by_cases null : q.ptr = 0
      · simp only [if_pos null]
        constructor
        · intro thrown
          cases thrown
        · rintro ⟨same, present⟩
          cases same
          exact absurd null present
      · simp only [if_neg null]
        constructor
        · intro returned
          cases returned
          exact ⟨rfl, null⟩
        · rintro ⟨same, _⟩
          cases same
          rfl

def Finds (mem : Memory) (data : Word) (nodeName propName : CString)
    (r : PropResult) : Prop :=
  (fdtGetProp mem data nodeName propName).val = some r ∧ r.ptr ≠ 0

/-- What the checks have established about an image that they let through. -/
structure Accepted (mem : Memory) (data kernImageLen : Word)
    (image : FitImage) : Prop where
  header : fdtCheckHeader mem data kernImageLen = 0
  kernelName :
    Finds mem data fitKernelNodeName (.lit "description") image.kernelName
  load : Finds mem data fitKernelNodeName (.lit "load") image.load
  kernelLoad : image.kernelLoad = mem.beWord image.load.ptr
  entry : Finds mem data fitKernelNodeName (.lit "entry") image.entry
  kernelEp : image.kernelEp = mem.beWord image.entry.ptr
  kernel : Finds mem data fitKernelNodeName (.lit "data") image.kernel
  kernelCompr :
    Finds mem data fitKernelNodeName (.lit "compression") image.kernelCompr
  dtb : Finds mem data fitDtbNodeName (.lit "data") image.dtb
  size : image.kernel.len < kernImageLen

theorem checkFitHeader_eq_ok {mem : Memory} {data kernImageLen : Word}
    {image : FitImage} :
    (checkFitHeader mem data kernImageLen).run = some (.ok image) ↔
      Accepted mem data kernImageLen image := by
  unfold checkFitHeader
  by_cases header : fdtCheckHeader mem data kernImageLen ≠ 0
  · rw [if_pos header]
    constructor
    · intro thrown
      cases thrown
    · intro accepted
      exact absurd accepted.header header
  · rw [if_neg header]
    simp only [bind_eq_ok, fitProp_eq_ok, ntohl_word]
    constructor
    · rintro ⟨kernelName, hName, load, hLoad, entry, hEntry, kernel, hKernel,
        compr, hCompr, dtb, hDtb, returned⟩
      split at returned
      next => cases returned
      next size =>
        cases returned
        exact ⟨not_not.mp header, hName, hLoad, rfl, hEntry, rfl, hKernel,
          hCompr, hDtb, BitVec.not_le.mp size⟩
    · intro accepted
      refine ⟨_, accepted.kernelName, _, accepted.load, _, accepted.entry, _,
        accepted.kernel, _, accepted.kernelCompr, _, accepted.dtb, ?_⟩
      rw [if_neg (BitVec.not_le.mpr accepted.size), ← accepted.kernelLoad,
        ← accepted.kernelEp]
      rfl

/-- The lookups of the handler, in their order. -/
def fitLookups : List (CString × CString) :=
  [(fitKernelNodeName, .lit "description"), (fitKernelNodeName, .lit "load"),
    (fitKernelNodeName, .lit "entry"), (fitKernelNodeName, .lit "data"),
    (fitKernelNodeName, .lit "compression"), (fitDtbNodeName, .lit "data")]

/-- One of the lookups never ends. -/
def LookupHangs (mem : Memory) (data : Word) : Prop :=
  ∃ names ∈ fitLookups, (fdtGetProp mem data names.1 names.2).val = none

theorem checkFitHeader_fails (mem : Memory) (data kernImageLen : Word) :
    Fails (fun code => -99 ≤ code ∧ code ≤ -93) (LookupHangs mem data)
      (checkFitHeader mem data kernImageLen) := by
  have hangs {nodeName propName : CString}
      (member : (nodeName, propName) ∈ fitLookups)
      (endless : (fdtGetProp mem data nodeName propName).val = none) :
      LookupHangs mem data := ⟨_, member, endless⟩
  unfold checkFitHeader
  by_cases header : fdtCheckHeader mem data kernImageLen ≠ 0
  · rw [if_pos header]
    exact .throw (by decide)
  · rw [if_neg header]
    refine (fitProp_fails (by decide)
      (hangs (by simp [fitLookups]))).bind fun _ => ?_
    refine (fitProp_fails (by decide)
      (hangs (by simp [fitLookups]))).bind fun _ => ?_
    refine (fitProp_fails (by decide)
      (hangs (by simp [fitLookups]))).bind fun _ => ?_
    refine (fitProp_fails (by decide)
      (hangs (by simp [fitLookups]))).bind fun _ => ?_
    refine (fitProp_fails (by decide)
      (hangs (by simp [fitLookups]))).bind fun _ => ?_
    refine (fitProp_fails (by decide)
      (hangs (by simp [fitLookups]))).bind fun _ => ?_
    split
    · exact .throw (by decide)
    · exact .pure _

theorem Accepted.unique {mem : Memory} {data kernImageLen : Word}
    {first second : FitImage} (left : Accepted mem data kernImageLen first)
    (right : Accepted mem data kernImageLen second) : first = second := by
  have same := (checkFitHeader_eq_ok.mpr left).symm.trans
    (checkFitHeader_eq_ok.mpr right)
  cases same
  rfl

end AuxLoader.Fit
