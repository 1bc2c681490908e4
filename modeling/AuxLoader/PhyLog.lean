import AuxLoader.PhysPwdown

namespace AuxLoader.Mdio

open Data

/-! Which PHYs the power-down commands, in terms of what has been done. -/

/-- A PHY, by its master and its address there. -/
abbrev Phy := Word × Word

namespace Transfer

def target (t : Transfer) : Phy := (t.regBase, t.phy)

def ShowsId (t : Transfer) : Prop :=
  ¬ t.IsWrite ∧ t.reg = miiPhysid1 ∧ t.completed ∧ t.data = 0x4d

def SetsPdown (t : Transfer) : Prop :=
  t.WritesBmcr ∧ t.data &&& bmcrPdown.setWidth 16 ≠ 0

end Transfer

def Answered (events : List Event) (phy : Phy) : Prop :=
  ∃ t : Transfer, .transfer t ∈ events ∧ t.ShowsId ∧ t.target = phy

def lcdPowered (s : Bus) : Prop :=
  s.registers (gpioInOutAddr gpioLcdPower) &&& 0x2 ≠ 0

/-- The registers of the masters that the PHYs are on. -/
def MasterRegister (phys : List Phy) (a : Word) : Prop :=
  ∃ phy ∈ phys, a = phy.1 + miiDataRegAddr ∨ a = phy.1 + miiAddrRegAddr

instance (phys : List Phy) (a : Word) : Decidable (MasterRegister phys a) :=
  inferInstanceAs (Decidable (∃ phy ∈ phys, _))

/-- What a run over the PHYs has done: every write asks a PHY to power down that
has shown its ID before, every PHY that shows its ID is asked to, and the LCD is
on if one has not. Whether a write gets through, nobody looks. -/
structure Attempts (phys : List Phy) (s t : Bus) (events : List Event) :
    Prop where
  log : t.log = s.log ++ events
  targets : ∀ w, .transfer w ∈ events → w.target ∈ phys
  commands : ∀ w, .transfer w ∈ events → w.IsWrite → w.SetsPdown
  asked : ∀ before w after, events = before ++ .transfer w :: after →
    w.IsWrite → Answered before w.target
  obeyed : ∀ phy, Answered events phy →
    ∃ w, .transfer w ∈ events ∧ w.SetsPdown ∧ w.target = phy
  registers : ∀ a, a ≠ gpioInOutAddr gpioLcdPower → ¬ MasterRegister phys a →
    t.registers a = s.registers a
  lcd : lcdPowered t ↔ lcdPowered s ∨ ∃ phy ∈ phys, ¬ Answered events phy

section Answered

variable {events others : List Event} {phy : Phy}

theorem answered_append :
    Answered (events ++ others) phy ↔
      Answered events phy ∨ Answered others phy := by
  simp only [Answered, List.mem_append, or_and_right, exists_or]

theorem not_answered_nil : ¬ Answered [] phy := by
  rintro ⟨t, member, _⟩
  cases member

end Answered

theorem masterRegister_append {phys more : List Phy} {a : Word} :
    MasterRegister (phys ++ more) a ↔
      MasterRegister phys a ∨ MasterRegister more a := by
  simp only [MasterRegister, List.mem_append, or_and_right, exists_or]

section Attempts

variable {phys more : List Phy} {s t u : Bus} {events others : List Event}

theorem Attempts.nil (s : Bus) : Attempts [] s s [] where
  log := (List.append_nil _).symm
  targets := nofun
  commands := nofun
  asked before w after split _ := by simp at split
  obeyed phy answered := absurd answered not_answered_nil
  registers _ _ _ := rfl
  lcd := by simp

theorem Attempts.of_answered (attempts : Attempts phys s t events) {phy : Phy}
    (answered : Answered events phy) : phy ∈ phys := by
  obtain ⟨t, member, _, rfl⟩ := answered
  exact attempts.targets t member

theorem Attempts.append (first : Attempts phys s t events)
    (second : Attempts more t u others) (apart : phys.Disjoint more) :
    Attempts (phys ++ more) s u (events ++ others) where
  log := by rw [second.log, first.log, List.append_assoc]
  targets w member := by
    rw [List.mem_append] at member ⊢
    exact member.imp (first.targets w) (second.targets w)
  commands w member := by
    rw [List.mem_append] at member
    exact member.elim (first.commands w) (second.commands w)
  asked before w after split writes := by
    rcases List.append_eq_append_iff.mp split with
      ⟨middle, rfl, rest⟩ | ⟨middle, rest, head⟩
    · exact answered_append.mpr (.inr (second.asked middle w after rest writes))
    · cases middle with
      | nil =>
          have none := second.asked [] w after head.symm writes
          exact absurd none not_answered_nil
      | cons event middle =>
          cases (List.cons.inj head).1
          exact first.asked before w middle rest writes
  obeyed phy answered := by
    simp only [List.mem_append]
    rcases answered_append.mp answered with here | there
    · obtain ⟨w, member, found⟩ := first.obeyed phy here
      exact ⟨w, .inl member, found⟩
    · obtain ⟨w, member, found⟩ := second.obeyed phy there
      exact ⟨w, .inr member, found⟩
  registers a other outside := by
    rw [masterRegister_append, not_or] at outside
    rw [second.registers a other outside.2, first.registers a other outside.1]
  lcd := by
    rw [second.lcd, first.lcd, or_assoc]
    refine or_congr_right ?_
    simp only [List.mem_append, answered_append, not_or]
    constructor
    · rintro (⟨phy, member, silent⟩ | ⟨phy, member, silent⟩)
      · exact ⟨phy, .inl member, silent,
          fun there => apart member (second.of_answered there)⟩
      · exact ⟨phy, .inr member,
          fun here => apart (first.of_answered here) member, silent⟩
    · rintro ⟨phy, member | member, here, there⟩
      · exact .inl ⟨phy, member, here⟩
      · exact .inr ⟨phy, member, there⟩

end Attempts

/-! One PHY. -/

section Transfers

variable (s : Bus) (ts : List Transfer)

end Transfers

section Phy

variable {replies : Nat → Reply} {regBase a : Word}

/-- A read of the ID that does not bring it. -/
def Unanswered (regBase a : Word) (t : Transfer) : Prop :=
  (∃ reply, t = .ofRead regBase a miiPhysid1 reply) ∧ ¬ t.ShowsId

end Phy

section One

variable {s : Bus} {phy : Phy} {front : List Transfer}

end One

section Pwdown

variable {replies : Nat → Reply} {a : Word}

theorem Unanswered.read {regBase : Word} {t : Transfer}
    (field : a &&& 0x1F = a) (unanswered : Unanswered regBase a t) :
    ¬ t.IsWrite ∧ t.target = (regBase, a) := by
  obtain ⟨⟨reply, rfl⟩, _⟩ := unanswered
  exact ⟨Transfer.not_isWrite_ofRead,
    congrArg (regBase, ·) (Transfer.phy_ofRead.trans field)⟩

end Pwdown

/-! Both runs. -/

end AuxLoader.Mdio
