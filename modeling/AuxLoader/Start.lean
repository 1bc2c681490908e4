import AuxLoader.Boot
import AuxLoader.Relocate

namespace AuxLoader

open Data

/-! The second stage up to `loader_main`, in `start.S`, and the way of an image
through both stages. -/

structure ClearBss where
  r0 : Word
  mem : Memory

/-- From `clbss_l` to `b clbss_l`. -/
def clbssBody (r1 : Word) : Loop Access ClearBss ClearBss := fun s =>
  if s.r0 < r1 then
    .touch [.store s.r0] (.inl ⟨s.r0 + 4, s.mem.setWord s.r0 0⟩)
  else
    return .inr s

/-- `none` when the pointer steps over the end and goes round for ever. -/
def clearBss (mem : Memory) (bssStart bssEnd : Word) :
    Traced Access (Option ClearBss) :=
  (clbssBody bssEnd).run (2 ^ 32) ⟨bssStart, mem⟩

/-- What the linker script makes of the second stage: `.bss` follows the image
and ends where the workspace starts. -/
structure LoaderImage extends Platform where
  bssStart : Word
  vectorTableStub : Word
  data_le_bss : kernelDataEnd ≤ bssStart
  bss_le_workspace : bssStart ≤ workspace
  bss_aligned : 32 ∣ bssStart.toNat

/-- The core as `loader_main` finds it. -/
structure LoaderCall where
  cpsr : Word
  vbar : Word
  sp : Word
  r0 : Word
  r1 : Word
  mem : Memory

/-- `_start`, entered by the first stage with the given status register. -/
def loaderStart (image : LoaderImage) (cpsr : Word) (entered : Entered) :
    Traced Access (Option LoaderCall) := do
  let r7 := entered.r1
  let r6 := entered.r2
  let cpsr := (cpsr &&& ~~~0x1f) ||| 0xd3
  let vbar := image.vectorTableStub
  let cleared ← clearBss entered.mem image.bssStart image.workspace
  let sp := image.textBase &&& ~~~7
  return cleared.map fun s => ⟨cpsr, vbar, sp, r7, r6, s.mem⟩

/-- Both stages, of one text base: the payload is the second stage, from its
text base beyond the image and up to `.bss`. -/
structure Build extends LoaderImage where
  head : HeadImage
  textBase_eq : head.textBase = textBase
  image_le_payload : kernelDataEnd.toNat ≤ textBase.toNat + head.payloadLength
  payload_le_bss : textBase.toNat + head.payloadLength ≤ bssStart.toNat
  textBase_aligned : textBase.Aligned

/-- The first stage has been loaded at an address that code can have, with its
payload, and off the place of the second: there the relocation or the stack
would overwrite it while it is in use. -/
structure Loaded (build : Build) (start : Word) : Prop where
  aligned : start.Aligned
  fits : start.toNat + build.head.payloadDataEndOfs.toNat + 8 < 2 ^ 32
  apart : start.toNat + build.head.payloadDataEndOfs.toNat + 8 ≤
    build.stackEnd ∨ build.workspace ≤ start

/-- Both stages up to `loader_main`, for a first stage that is entered at its
`_start` with the machine type in `r1`. -/
def enterLoader (build : Build) (mem : Memory) (start arch cpsr : Word) :
    Option LoaderCall :=
  (headStart build.head build.cpuType mem start arch).val.bind fun entered =>
    (loaderStart build.toLoaderImage cpsr entered).val

/-- Both stages, from the first instruction on. -/
def bootChain (build : Build) (decode : LzmaDecoder) (mem : Memory)
    (start arch cpsr cr : Word) : Option Outcome :=
  (enterLoader build mem start arch cpsr).bind fun call =>
    run build.toPlatform decode call.r1 call.mem cr

/-! The loop. -/

def ClearBss.word (s : ClearBss) : ClearBss := ⟨s.r0 + 4, s.mem.setWord s.r0 0⟩

theorem clearBss_while (r1 : Word) :
    (clbssBody r1).While (fun s => s.r0 < r1) ClearBss.word where
  goes _ more := congrArg Traced.val (if_pos more)
  stops _ last := congrArg Traced.val (if_neg last)

theorem r0_word_iterate (n : Nat) (s : ClearBss) :
    (ClearBss.word^[n] s).r0 = s.r0 + BitVec.ofNat 32 (4 * n) :=
  @Word.iterate_add_ofNat _ ClearBss.word ClearBss.r0 4 (fun _ => rfl) n s

theorem word_zero_setWord (mem : Memory) (address : Word) {a : Word}
    (inside : Word.Within address 4 a) : mem.setWord address 0 a = 0 :=
  (if_pos inside).trans (Word.byte_zero _)

/-- What the first words are cleared of, and nothing else. -/
theorem mem_word_iterate (s : ClearBss) {n : Nat} (bound : 4 * n ≤ 2 ^ 32)
    (a : Word) :
    (ClearBss.word^[n] s).mem a =
      if (a - s.r0).toNat < 4 * n then 0 else s.mem a := by
  induction n with
  | zero => exact (if_neg (Nat.not_lt_zero _)).symm
  | succ n ih =>
      have prior := ih (by omega)
      have next : Word.Within (ClearBss.word^[n] s).r0 4 a ↔
          4 * n ≤ (a - s.r0).toNat ∧ (a - s.r0).toNat < 4 * n + 4 := by
        rw [r0_word_iterate]
        exact Word.within_add_iff (by omega)
      rw [Function.iterate_succ_apply']
      by_cases here : Word.Within (ClearBss.word^[n] s).r0 4 a
      · rw [if_pos (by have := next.mp here; omega)]
        exact word_zero_setWord _ _ here
      · have same : (ClearBss.word^[n] s).word.mem a =
            (ClearBss.word^[n] s).mem a := Memory.setWord_outside _ _ here
        rw [same, prior]
        by_cases before : (a - s.r0).toNat < 4 * n
        · rw [if_pos before, if_pos (by omega)]
        · rw [if_neg before, if_neg (by
            intro later
            exact here (next.mpr (by omega)))]

/-- The region is cleared word by word, and nothing else changes. -/
theorem clearBss_clears (mem : Memory) {bssStart bssEnd : Word}
    (order : bssStart ≤ bssEnd) (first : bssStart.Aligned)
    (last : bssEnd.Aligned) :
    ∃ s, (clearBss mem bssStart bssEnd).val = some s ∧
      ∀ a, s.mem a =
        if bssStart ≤ a ∧ a < bssEnd then 0 else mem a := by
  have below := BitVec.le_def.mp order
  have top := bssEnd.isLt
  obtain ⟨count, size⟩ : ∃ count,
      bssEnd.toNat = bssStart.toNat + 4 * count := by
    unfold Word.Aligned at first last
    exact ⟨(bssEnd.toNat - bssStart.toNat) / 4, by omega⟩
  refine ⟨ClearBss.word^[count] ⟨bssStart, mem⟩,
    (clearBss_while bssEnd).run_val_eq_some_iff.mpr
      ⟨count, by omega, fun j before => ?_, ?_, rfl⟩, fun a => ?_⟩
  · rw [r0_word_iterate, BitVec.lt_def,
      Word.toNat_add_ofNat (by dsimp only; omega)]
    dsimp only
    omega
  · rw [r0_word_iterate, BitVec.lt_def,
      Word.toNat_add_ofNat (by dsimp only; omega)]
    dsimp only
    omega
  · rw [mem_word_iterate _ (by omega)]
    refine if_congr ?_ rfl rfl
    rw [BitVec.le_def, BitVec.lt_def]
    dsimp only
    bv_omega

/-! The core as it is set up. -/

theorem toNat_and_not_seven (word : Word) :
    (word &&& ~~~(7 : Word)).toNat = word.toNat / 8 * 8 := by
  have shifted : word &&& ~~~(7 : Word) = (word >>> 3) <<< 3 := by
    ext i hi
    interval_cases i <;> simp
  rw [shifted]
  simp only [BitVec.toNat_shiftLeft, BitVec.toNat_ushiftRight,
    Nat.shiftRight_eq_div_pow, Nat.shiftLeft_eq]
  omega

/-- `loader_main` is entered in SVC mode without interrupts, on a stack below
the text, with `.bss` cleared and the payload where it has been linked. -/
structure LoaderReady (build : Build) (mem : Memory) (start arch cpsr : Word)
    (call : LoaderCall) : Prop where
  r0 : call.r0 = start
  r1 : call.r1 = arch
  mode : call.cpsr &&& 0x1f = 0x13
  masked : call.cpsr &&& 0xc0 = 0xc0
  flags : call.cpsr &&& ~~~0xdf = cpsr &&& ~~~0xdf
  vbar : call.vbar = build.vectorTableStub
  stack : 8 ∣ call.sp.toNat ∧ call.sp ≤ build.textBase
  payload : ∀ i, i < build.head.payloadLength →
    call.mem (build.textBase + BitVec.ofNat 32 i) =
      mem (build.head.payloadDataBeginOfs + start + BitVec.ofNat 32 i)
  bss : ∀ a, build.bssStart ≤ a → a < build.workspace → call.mem a = 0
  frame : ∀ a, ¬ Word.Within build.textBase
      (copiedLength build.head.payloadLength) a →
    ¬ (build.bssStart ≤ a ∧ a < build.workspace) → call.mem a = mem a

theorem Word.aligned_of_dvd {address : Word} (aligned : 32 ∣ address.toNat) :
    address.Aligned :=
  Nat.dvd_trans (by decide) aligned

theorem Loaded.ranges {build : Build} {start : Word}
    (loaded : Loaded build start) :
    RelocationRanges build.textBase (build.head.payloadDataBeginOfs + start)
      build.head.payloadLength := by
  obtain ⟨_, fits, apart⟩ := loaded
  have order := BitVec.le_def.mp build.head.begin_le_end
  have stack := build.stackEnd_le_textBase
  have text := build.textBase_le_workspace
  have bss := BitVec.le_def.mp build.bss_le_workspace
  have payload := build.payload_le_bss
  have room := build.workspace_add_lt
  have source : (build.head.payloadDataBeginOfs + start).toNat =
      start.toNat + build.head.payloadDataBeginOfs.toNat := by
    bv_omega
  have length : build.head.payloadLength =
      build.head.payloadDataEndOfs.toNat -
        build.head.payloadDataBeginOfs.toNat := rfl
  have rounds : copiedLength build.head.payloadLength ≤
      build.head.payloadLength + 8 := by
    unfold copiedLength
    split <;> omega
  refine ⟨by omega, by omega, ?_⟩
  rw [BitVec.le_def, source]
  refine apart.symm.imp (fun above => ?_) fun below => by omega
  have := BitVec.le_def.mp above
  omega

theorem enterLoader_ready (build : Build) (mem : Memory)
    (start arch cpsr : Word)
    (ranges : RelocationRanges build.textBase
      (build.head.payloadDataBeginOfs + start) build.head.payloadLength) :
    ∃ call, enterLoader build mem start arch cpsr = some call ∧
      LoaderReady build mem start arch cpsr call := by
  rw [← build.textBase_eq] at ranges
  obtain ⟨entered, returned, _, r1, r2, payload, outside⟩ :=
    headStart_enters build.cpuType mem arch ranges
  obtain ⟨s, cleared, bss⟩ := clearBss_clears entered.mem
    build.bss_le_workspace (Word.aligned_of_dvd build.bss_aligned)
    (Word.aligned_of_dvd build.workspace_aligned)
  refine ⟨⟨(cpsr &&& ~~~0x1f) ||| 0xd3, build.vectorTableStub,
    build.textBase &&& ~~~7, entered.r1, entered.r2, s.mem⟩, ?_, ?_⟩
  · rw [enterLoader, returned, Option.bind_some, loaderStart, Traced.val_bind,
      cleared]
    rfl
  · have below := build.payload_le_bss
    have top := build.bssStart.isLt
    rw [build.textBase_eq] at payload outside
    exact {
      r0 := r1
      r1 := r2
      mode := by
        ext i bound
        interval_cases i <;> simp
      masked := by
        ext i bound
        interval_cases i <;> simp
      flags := by
        ext i bound
        interval_cases i <;> simp
      vbar := rfl
      stack := by
        rw [BitVec.le_def, toNat_and_not_seven]
        exact ⟨Nat.dvd_mul_left 8 _, Nat.div_mul_le_self _ _⟩
      payload := by
        intro i bound
        rw [← payload i bound]
        refine (bss _).trans (if_neg fun inside => ?_)
        rw [BitVec.le_def, Word.toNat_add_ofNat (by omega)] at inside
        omega
      bss := fun a above before => (bss a).trans (if_pos ⟨above, before⟩)
      frame := fun a out apart =>
        (bss a).trans ((if_neg apart).trans (outside a out)) }

end AuxLoader
