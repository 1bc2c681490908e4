import Mathlib.Data.List.Infix
import AuxLoader.Mdio

namespace AuxLoader.Mdio

open Data

/-! Powering the PHYs down, in `do_phys_pwdown` of `loader.c`. -/

def gpioLcdPower : Word := 48

section Code

variable (replies : Nat → Reply)

/-- The loop `while (limiter++ < 100)`, of which `tries` rounds are left. The
test that ends it counts as well. -/
def awaitPhy (a : Word) : Nat → Nat → Bus → Nat × Bus
  | 0, limiter, s => (limiter + 1, s)
  | tries + 1, limiter, s =>
      let limiter := limiter + 1
      let (val, s) := ipqPhyRead replies a miiPhysid1 s
      if val = 0x4d then
        -- The value of a read that has timed out goes on like any other.
        let (val, s) := ipqPhyRead replies a miiBmcr s
        let val := val ||| bmcrPdown
        let (_, s) := ipqPhyWrite replies a miiBmcr (val.setWidth 16) s
        (limiter, s)
      else
        awaitPhy a tries limiter s

def pwdownPhy (a : Word) (s : Bus) : Bus :=
  let (limiter, s) := awaitPhy replies a 100 0 s
  if limiter > 100 then
    gpioSetValue gpioLcdPower 1 s
  else
    s

/-- The first `n` rounds of `for (a = 0; a <= 4; a++)`. -/
def pwdownPhys : Nat → Bus → Bus
  | 0, s => s
  | n + 1, s => pwdownPhy replies (BitVec.ofNat 32 n) (pwdownPhys n s)

def mdioBase (mdioNum : Int) : Word :=
  if mdioNum = 1 then nssGmac1Base else nssGmac0Base

def doPhysPwdown (mdioNum : Int) (s : Bus) : Bus :=
  pwdownPhys replies 5 { s with mdioRegBase := mdioBase mdioNum }

end Code

/-! What an honest run leaves in the log. -/

namespace Transfer

def WritesBmcr (w : Transfer) : Prop := w.IsWrite ∧ w.reg = miiBmcr

/-- `w` puts back what `r` has read from the same register, powered down. -/
structure Backs (r w : Transfer) : Prop where
  isRead : ¬ r.IsWrite
  regBase : r.regBase = w.regBase
  phy : r.phy = w.phy
  reg : r.reg = miiBmcr
  completed : r.completed
  value : w.data = r.data ||| bmcrPdown.setWidth 16

end Transfer

/-- Right before every write to a BMCR stands the read that it is made from. -/
def Backed (log : List Event) : Prop :=
  ∀ before w after, log = before ++ .transfer w :: after → w.WritesBmcr →
    ∃ r, before.getLast? = some (.transfer r) ∧ r.Backs w

def PoweredDown (log : List Event) (regBase phyAddr : Word) : Prop :=
  ∃ r w : Transfer, [.transfer r, .transfer w] <:+: log ∧ w.WritesBmcr ∧
    w.regBase = regBase ∧ w.phy = phyAddr ∧ r.Backs w ∧ w.completed

def RaisesLcdPower (log : List Event) : Prop :=
  ∃ value, .writel value (gpioInOutAddr gpioLcdPower) ∈ log ∧
    value &&& 0x2 ≠ 0

structure HonestPwdown (log : List Event) (regBase : Word) : Prop where
  backed : Backed log
  powered : ¬ RaisesLcdPower log →
    ∀ a, a < 5 → PoweredDown log regBase (BitVec.ofNat 32 a)

/-! Which reply answers which transfer. -/

/-- What a read brings, if it does not time out. -/
def Reply.answer (reply : Reply) : Option (BitVec 16) :=
  if reply.completes then some reply.dataReg else none

section Answers

variable (replies : Nat → Reply)

/-- The first of so many replies from `i` on that brings the expected ID. -/
def readyAt : Nat → Nat → Option Nat
  | 0, _ => none
  | tries + 1, i =>
      if (replies i).answer = some 0x4d then some i else readyAt tries (i + 1)

/-- The reply to the first transfer to a PHY. -/
def physStart : Nat → Nat
  | 0 => 0
  | a + 1 =>
      match readyAt replies 100 (physStart a) with
      | some k => k + 3
      | none => physStart a + 100

/-- PHY `a` brings its ID in reply `k`, and its BMCR is read in the next. -/
def Ready (a k : Nat) : Prop :=
  readyAt replies 100 (physStart replies a) = some k

instance (a k : Nat) : Decidable (Ready replies a k) :=
  inferInstanceAs (Decidable (_ = some k))

/-- No read of a BMCR times out, and no write to one if all PHYs are ready. -/
structure InTime : Prop where
  bmcrRead : ∀ a, a < 5 → ∀ k, Ready replies a k →
    (replies (k + 1)).completes
  bmcrWrite : (∀ a, a < 5 → ∃ k, Ready replies a k) →
    ∀ a, a < 5 → ∀ k, Ready replies a k → (replies (k + 2)).completes

end Answers

/-! What a stretch of the run adds to the log. -/

section Log

variable {log : List Event}

theorem backed_concat {e : Event} :
    Backed (log ++ [e]) ↔
      Backed log ∧ ∀ w, e = .transfer w → w.WritesBmcr →
        ∃ r, log.getLast? = some (.transfer r) ∧ r.Backs w := by
  constructor
  · intro backed
    constructor
    · intro before w after split writes
      exact backed before w (after ++ [e]) (by simp [split]) writes
    · rintro w rfl writes
      exact backed log w [] rfl writes
  · rintro ⟨backed, last⟩ before w after split writes
    rcases List.eq_nil_or_concat after with rfl | ⟨init, final, rfl⟩
    · obtain ⟨rfl, here⟩ := List.append_inj' split rfl
      exact last w (List.singleton_inj.mp here) writes
    · rw [List.concat_eq_append, ← List.cons_append, ← List.append_assoc]
        at split
      exact backed before w init (List.append_inj' split rfl).1 writes

/-- A transfer that does not write to a BMCR. -/
def Quiet (e : Event) : Prop := ∃ t : Transfer, e = .transfer t ∧ ¬ t.WritesBmcr

theorem backed_append_quiet {probes : List Event}
    (quiet : ∀ e ∈ probes, Quiet e) : Backed (log ++ probes) ↔ Backed log := by
  induction probes using List.reverseRecOn with
  | nil => rw [List.append_nil]
  | append_singleton front e ih =>
      rw [← List.append_assoc, backed_concat,
        ih fun d member => quiet d (List.mem_append_left _ member)]
      refine and_iff_left fun w here writes => ?_
      obtain ⟨t, there, silent⟩ := quiet e (by simp)
      cases here.symm.trans there
      exact absurd writes silent

theorem raises_append_quiet {probes : List Event}
    (quiet : ∀ e ∈ probes, Quiet e) :
    RaisesLcdPower (log ++ probes) ↔ RaisesLcdPower log := by
  refine exists_congr fun value => and_congr_left fun _ => ?_
  rw [List.mem_append]
  refine or_iff_left fun member => ?_
  obtain ⟨t, there, _⟩ := quiet _ member
  cases there

theorem written_append_quiet {probes : List Event}
    (quiet : ∀ e ∈ probes, Quiet e) {w : Transfer} (writes : w.WritesBmcr) :
    .transfer w ∈ log ++ probes ↔ .transfer w ∈ log := by
  rw [List.mem_append]
  refine or_iff_left fun member => ?_
  obtain ⟨t, there, silent⟩ := quiet _ member
  cases there
  exact silent writes

end Log

/-! One PHY. -/

def bmcrRead (regBase : Word) (a : Word) (reply : Reply) : Transfer :=
  .ofRead regBase a miiBmcr reply

/-- The write that follows the read of the BMCR, with the reply to each. -/
def bmcrWrite (regBase : Word) (a : Word) (read reply : Reply) : Transfer :=
  .ofWrite regBase a miiBmcr
    (((if read.completes then read.dataReg.setWidth 32 else -1) |||
      bmcrPdown).setWidth 16) reply

section Phy

variable {replies : Nat → Reply} {regBase a : Word} {read reply : Reply}

theorem not_writesBmcr_ofRead {regnum : Word} :
    ¬ (Transfer.ofRead regBase a regnum reply).WritesBmcr :=
  fun writes => Transfer.not_isWrite_ofRead writes.1

theorem writesBmcr_bmcrWrite : (bmcrWrite regBase a read reply).WritesBmcr :=
  ⟨Transfer.isWrite_ofWrite, Transfer.reg_ofWrite.trans (by decide)⟩

/-- The read backs the write exactly when it has not timed out. -/
theorem backs_iff :
    (bmcrRead regBase a read).Backs (bmcrWrite regBase a read reply) ↔
      read.completes := by
  constructor
  · intro backs
    exact backs.completed
  · intro completes
    exact {
      isRead := Transfer.not_isWrite_ofRead
      regBase := rfl
      phy := Transfer.phy_ofRead.trans Transfer.phy_ofWrite.symm
      reg := Transfer.reg_ofRead.trans (by decide)
      completed := completes
      value := by
        rw [bmcrWrite, if_pos completes]
        simp [Transfer.ofWrite, bmcrRead, Transfer.ofRead] }

theorem val_eq_iff (reply : Reply) :
    (if reply.completes then reply.dataReg.setWidth 32 else (-1 : Word)) =
        0x4d ↔ reply.answer = some 0x4d := by
  rw [Reply.answer]
  split
  next =>
    rw [Option.some_inj]
    constructor <;> intro _ <;> bv_omega
  next => exact iff_of_false (by decide) (by simp)

def probed (replies : Nat → Reply) (a : Word) (s : Bus) : Bus :=
  s.transfer (.ofRead s.mdioRegBase a miiPhysid1 (replies s.count))

def poweredDown (replies : Nat → Reply) (a : Word) (s : Bus) : Bus :=
  (s.transfer (bmcrRead s.mdioRegBase a (replies s.count))).transfer
    (bmcrWrite s.mdioRegBase a (replies s.count) (replies (s.count + 1)))

theorem awaitPhy_succ (tries limiter : Nat) (s : Bus) :
    awaitPhy replies a (tries + 1) limiter s =
      if (replies s.count).answer = some 0x4d then
        (limiter + 1, poweredDown replies a (probed replies a s))
      else awaitPhy replies a tries (limiter + 1) (probed replies a s) := by
  rw [← if_congr (val_eq_iff _) rfl rfl]
  rfl

/-- What a wait has added to the log after its reads of the ID. -/
structure Probed (s next : Bus) (last : List Event) : Prop where
  mdioRegBase : next.mdioRegBase = s.mdioRegBase
  log : ∃ probes : List Event, (∀ e ∈ probes, Quiet e) ∧
    next.log = s.log ++ probes ++ last

theorem Probed.head {s next : Bus} {last : List Event}
    (rest : Probed (probed replies a s) next last) : Probed s next last := by
  obtain ⟨probes, quiet, log⟩ := rest.log
  refine ⟨rest.mdioRegBase, .transfer (.ofRead s.mdioRegBase a miiPhysid1
    (replies s.count)) :: probes, List.forall_mem_cons.mpr
      ⟨⟨_, rfl, not_writesBmcr_ofRead⟩, quiet⟩, ?_⟩
  rw [log]
  simp [probed, Bus.transfer, Bus.emit]

/-- The events that end the wait for a PHY that is ready. -/
def pwdownEvents (replies : Nat → Reply) (regBase a : Word) (k : Nat) :
    List Event :=
  [.transfer (bmcrRead regBase a (replies (k + 1))),
    .transfer (bmcrWrite regBase a (replies (k + 1)) (replies (k + 2)))]

section Added

variable {log : List Event} {k : Nat}

theorem pwdownEvents_eq :
    log ++ pwdownEvents replies regBase a k =
      log ++ [.transfer (bmcrRead regBase a (replies (k + 1)))] ++
        [.transfer (bmcrWrite regBase a (replies (k + 1))
          (replies (k + 2)))] :=
  (List.append_assoc log [_] [_]).symm

theorem backed_append_pwdownEvents :
    Backed (log ++ pwdownEvents replies regBase a k) ↔
      Backed log ∧ (replies (k + 1)).completes := by
  rw [pwdownEvents_eq, backed_concat, backed_concat, and_assoc,
    ← @backs_iff regBase a (replies (k + 1)) (replies (k + 2))]
  refine and_congr_right fun _ => ?_
  constructor
  · rintro ⟨_, last⟩
    obtain ⟨r, final, backs⟩ := last _ rfl writesBmcr_bmcrWrite
    rw [List.getLast?_concat] at final
    cases final
    exact backs
  · intro backs
    constructor
    · intro w here writes
      cases here
      exact absurd writes not_writesBmcr_ofRead
    · intro w here _
      cases here
      exact ⟨_, List.getLast?_concat, backs⟩

theorem written_append_pwdownEvents {w : Transfer} (writes : w.WritesBmcr) :
    .transfer w ∈ log ++ pwdownEvents replies regBase a k ↔
      .transfer w ∈ log ∨
        w = bmcrWrite regBase a (replies (k + 1)) (replies (k + 2)) := by
  have notRead : w ≠ bmcrRead regBase a (replies (k + 1)) := by
    rintro rfl
    exact not_writesBmcr_ofRead writes
  simp [pwdownEvents, notRead]

theorem raises_append_pwdownEvents :
    RaisesLcdPower (log ++ pwdownEvents replies regBase a k) ↔
      RaisesLcdPower log := by
  simp [RaisesLcdPower, pwdownEvents]

theorem backed_append_writel {value address : Word} :
    Backed (log ++ [.writel value address]) ↔ Backed log := by
  rw [backed_concat]
  refine and_iff_left fun w here _ => ?_
  cases here

end Added

theorem awaitPhy_ready {tries limiter k : Nat} {s : Bus}
    (ready : readyAt replies tries s.count = some k) :
    (awaitPhy replies a tries limiter s).1 ≤ limiter + tries ∧
      (awaitPhy replies a tries limiter s).2.count = k + 3 ∧
      Probed s (awaitPhy replies a tries limiter s).2
        (pwdownEvents replies s.mdioRegBase a k) := by
  induction tries generalizing limiter s with
  | zero => cases ready
  | succ tries ih =>
      rw [readyAt] at ready
      rw [awaitPhy_succ]
      by_cases here : (replies s.count).answer = some 0x4d
      · rw [if_pos here] at ready
        cases ready
        rw [if_pos here]
        refine ⟨Nat.add_le_add_left (Nat.succ_pos tries) limiter, rfl, ?_⟩
        have direct : Probed (probed replies a s)
            (poweredDown replies a (probed replies a s))
            (pwdownEvents replies s.mdioRegBase a s.count) := by
          refine ⟨rfl, [], by simp, ?_⟩
          simp [poweredDown, probed, pwdownEvents, Bus.transfer, Bus.emit]
        exact direct.head
      · rw [if_neg here] at ready
        rw [if_neg here]
        obtain ⟨bound, count, rest⟩ :=
          @ih (limiter + 1) (probed replies a s) ready
        exact ⟨by omega, count, rest.head⟩

theorem awaitPhy_silent {tries limiter : Nat} {s : Bus}
    (silent : readyAt replies tries s.count = none) :
    (awaitPhy replies a tries limiter s).1 = limiter + tries + 1 ∧
      (awaitPhy replies a tries limiter s).2.count = s.count + tries ∧
      Probed s (awaitPhy replies a tries limiter s).2 [] := by
  induction tries generalizing limiter s with
  | zero => exact ⟨rfl, rfl, rfl, [], by simp, by simp [awaitPhy]⟩
  | succ tries ih =>
      rw [readyAt] at silent
      rw [awaitPhy_succ]
      by_cases here : (replies s.count).answer = some 0x4d
      · rw [if_pos here] at silent
        cases silent
      · rw [if_neg here] at silent
        rw [if_neg here]
        obtain ⟨limit, count, rest⟩ :=
          @ih (limiter + 1) (probed replies a s) silent
        change _ = s.count + 1 + tries at count
        exact ⟨by omega, by omega, rest.head⟩

theorem pwdownPhy_eq (s : Bus) :
    pwdownPhy replies a s =
      if (awaitPhy replies a 100 0 s).1 > 100 then
        gpioSetValue gpioLcdPower 1 (awaitPhy replies a 100 0 s).2
      else (awaitPhy replies a 100 0 s).2 := rfl

theorem pwdownPhy_ready {k : Nat} {s : Bus}
    (ready : readyAt replies 100 s.count = some k) :
    (pwdownPhy replies a s).count = k + 3 ∧
      Probed s (pwdownPhy replies a s)
        (pwdownEvents replies s.mdioRegBase a k) := by
  obtain ⟨limit, rest⟩ := @awaitPhy_ready replies a 100 0 k s ready
  rw [pwdownPhy_eq, if_neg (by omega)]
  exact rest

/-- The last test of the loop takes `limiter` to 101. -/
theorem pwdownPhy_silent {s : Bus}
    (silent : readyAt replies 100 s.count = none) :
    (pwdownPhy replies a s).count = s.count + 100 ∧
      ∃ value, value &&& 0x2 ≠ 0 ∧
        Probed s (pwdownPhy replies a s)
          [.writel value (gpioInOutAddr gpioLcdPower)] := by
  obtain ⟨limit, count, regBase, probes, quiet, log⟩ :=
    @awaitPhy_silent replies a 100 0 s silent
  obtain ⟨value, high, raised⟩ :=
    gpioSetValue_high gpioLcdPower (awaitPhy replies a 100 0 s).2
  rw [pwdownPhy_eq, if_pos (by omega), raised]
  refine ⟨count, value, high, regBase, probes, quiet, ?_⟩
  rw [Bus.writel, Bus.emit, log, List.append_nil]

end Phy

/-! The run over the PHYs. -/

section Run

variable {replies : Nat → Reply} {regBase : Word}

/-- What the log says after the first `n` PHYs. -/
structure PwdownLog (replies : Nat → Reply) (regBase : Word) (n : Nat)
    (s : Bus) : Prop where
  mdioRegBase : s.mdioRegBase = regBase
  count : s.count = physStart replies n
  backed : Backed s.log ↔
    ∀ a < n, ∀ k, Ready replies a k → (replies (k + 1)).completes
  written : ∀ w, .transfer w ∈ s.log → w.WritesBmcr →
    ∃ a < n, ∃ k, Ready replies a k ∧
      w = bmcrWrite regBase (BitVec.ofNat 32 a) (replies (k + 1))
        (replies (k + 2))
  events : ∀ a < n, ∀ k, Ready replies a k →
    pwdownEvents replies regBase (BitVec.ofNat 32 a) k <:+: s.log
  raises : RaisesLcdPower s.log ↔ ∃ a < n, ∀ k, ¬ Ready replies a k

theorem PwdownLog.start (s : Bus) (fresh : s.count = 0) (empty : s.log = []) :
    PwdownLog replies s.mdioRegBase 0 s where
  mdioRegBase := rfl
  count := fresh
  backed := by
    refine iff_of_true ?_ (by simp)
    intro before w after split _
    rw [empty] at split
    simp at split
  written w member := by
    rw [empty] at member
    cases member
  events a bound := absurd bound (Nat.not_lt_zero a)
  raises := by simp [RaisesLcdPower, empty]

theorem PwdownLog.ready {n k : Nat} {s : Bus}
    (logged : PwdownLog replies regBase n s) (ready : Ready replies n k) :
    PwdownLog replies regBase (n + 1)
      (pwdownPhy replies (BitVec.ofNat 32 n) s) := by
  have here := ready
  rw [Ready, ← logged.count] at here
  obtain ⟨count, base, probes, quiet, log⟩ :=
    @pwdownPhy_ready replies (BitVec.ofNat 32 n) k s here
  rw [logged.mdioRegBase] at base log
  have only (j : Nat) : Ready replies n j ↔ j = k := by
    rw [Ready, ready, Option.some_inj, eq_comm]
  have spoken : ¬ ∀ j, ¬ Ready replies n j := fun silent => silent k ready
  constructor
  · exact base
  · rw [count, physStart, ready]
  · rw [log, backed_append_pwdownEvents, backed_append_quiet quiet,
      logged.backed, Nat.forall_lt_succ_right]
    simp only [only, forall_eq]
  · intro w member writes
    rw [log, written_append_pwdownEvents writes,
      written_append_quiet quiet writes] at member
    rcases member with earlier | rfl
    · obtain ⟨a, bound, found⟩ := logged.written w earlier writes
      exact ⟨a, Nat.lt_succ_of_lt bound, found⟩
    · exact ⟨n, Nat.lt_succ_self n, k, ready, rfl⟩
  · rw [Nat.forall_lt_succ_right]
    constructor
    · intro a bound j found
      rw [log, List.append_assoc]
      exact (logged.events a bound j found).trans
        (List.prefix_append _ _).isInfix
    · intro j found
      cases (only j).mp found
      rw [log]
      exact (List.suffix_append _ _).isInfix
  · rw [log, raises_append_pwdownEvents, raises_append_quiet quiet,
      logged.raises, Nat.exists_lt_succ_right, or_iff_left spoken]

theorem PwdownLog.silent {n : Nat} {s : Bus}
    (logged : PwdownLog replies regBase n s)
    (silent : ∀ k, ¬ Ready replies n k) :
    PwdownLog replies regBase (n + 1)
      (pwdownPhy replies (BitVec.ofNat 32 n) s) := by
  have none : readyAt replies 100 (physStart replies n) = none :=
    Option.eq_none_iff_forall_ne_some.mpr silent
  have here := none
  rw [← logged.count] at here
  obtain ⟨count, value, high, base, probes, quiet, log⟩ :=
    @pwdownPhy_silent replies (BitVec.ofNat 32 n) s here
  have vacuous {P : Nat → Prop} :
      (∀ k, Ready replies n k → P k) ↔ True :=
    iff_of_true (fun k found => absurd found (silent k)) trivial
  constructor
  · exact base.trans logged.mdioRegBase
  · rw [count, physStart, none, logged.count]
  · rw [log, backed_append_writel, backed_append_quiet quiet, logged.backed,
      Nat.forall_lt_succ_right, vacuous, and_true]
  · intro w member writes
    rw [log, List.mem_append, written_append_quiet quiet writes] at member
    rcases member with earlier | raised
    · obtain ⟨a, bound, found⟩ := logged.written w earlier writes
      exact ⟨a, Nat.lt_succ_of_lt bound, found⟩
    · cases List.mem_singleton.mp raised
  · rw [Nat.forall_lt_succ_right, vacuous, and_true]
    intro a bound j found
    rw [log, List.append_assoc]
    exact (logged.events a bound j found).trans
      (List.prefix_append _ _).isInfix
  · rw [log, Nat.exists_lt_succ_right]
    exact iff_of_true ⟨value, by simp, high⟩ (.inr silent)

theorem pwdownPhys_log (n : Nat) {s : Bus} (fresh : s.count = 0)
    (empty : s.log = []) :
    PwdownLog replies s.mdioRegBase n (pwdownPhys replies n s) := by
  induction n with
  | zero => exact .start s fresh empty
  | succ n ih =>
      by_cases spoken : ∃ k, Ready replies n k
      · obtain ⟨k, ready⟩ := spoken
        exact ih.ready ready
      · exact ih.silent (not_exists.mp spoken)

/-- The state in which the power-down starts. -/
def Bus.start (regBase : Word) (gpio : Word → Word) : Bus where
  mdioRegBase := regBase
  count := 0
  registers := gpio
  log := []

theorem doPhysPwdown_log (replies : Nat → Reply) (mdioNum : Int)
    (regBase : Word) (gpio : Word → Word) :
    PwdownLog replies (mdioBase mdioNum) 5
      (doPhysPwdown replies mdioNum (.start regBase gpio)) :=
  @pwdownPhys_log replies 5 (.start (mdioBase mdioNum) gpio) rfl rfl

theorem phy_bmcrWrite {a : Nat} (bound : a < 5) (read reply : Reply) :
    (bmcrWrite regBase (BitVec.ofNat 32 a) read reply).phy =
      BitVec.ofNat 32 a := by
  have table : ∀ a : Fin 5,
      BitVec.ofNat 32 a.val &&& 0x1F = BitVec.ofNat 32 a.val := by decide
  exact Transfer.phy_ofWrite.trans (table ⟨a, bound⟩)

/-- Nobody looks at the outcome of the read and the write of the BMCR. -/
theorem doPhysPwdown_honest_iff (replies : Nat → Reply) (mdioNum : Int)
    (regBase : Word) (gpio : Word → Word) :
    HonestPwdown (doPhysPwdown replies mdioNum (.start regBase gpio)).log
        (mdioBase mdioNum) ↔ InTime replies := by
  have logged := doPhysPwdown_log replies mdioNum regBase gpio
  generalize doPhysPwdown replies mdioNum (.start regBase gpio) = s at logged
  constructor
  · intro honest
    refine ⟨logged.backed.mp honest.backed, fun spoken a bound k ready => ?_⟩
    have quiet : ¬ RaisesLcdPower s.log := by
      rw [logged.raises]
      rintro ⟨b, inside, silent⟩
      obtain ⟨j, found⟩ := spoken b inside
      exact silent j found
    obtain ⟨r, w, adjacent, writes, _, phy, _, completed⟩ :=
      honest.powered quiet a bound
    have member : .transfer w ∈ s.log := adjacent.subset (by simp)
    obtain ⟨b, inside, j, found, rfl⟩ := logged.written w member writes
    -- Each PHY has one write only.
    rw [phy_bmcrWrite inside] at phy
    have same : b = a := by bv_omega
    subst same
    cases ready.symm.trans found
    exact completed
  · intro inTime
    refine ⟨logged.backed.mpr inTime.bmcrRead, fun quiet a bound => ?_⟩
    have spoken : ∀ b, b < 5 → ∃ k, Ready replies b k := by
      intro b inside
      by_contra silent
      exact quiet (logged.raises.mpr ⟨b, inside, not_exists.mp silent⟩)
    obtain ⟨k, ready⟩ := spoken a bound
    exact ⟨_, _, logged.events a bound k ready, writesBmcr_bmcrWrite, rfl,
      phy_bmcrWrite bound _ _,
      backs_iff.mpr (inTime.bmcrRead a bound k ready),
      inTime.bmcrWrite spoken a bound k ready⟩

end Run

/-! A bus that is busy during the second transfer. -/

def lostReadReplies (i : Nat) : Reply where
  addrReg _ := if i = 1 then miiBusy else 0
  dataReg := 0x4d

theorem doPhysPwdown_writes_lost :
    (∃ w, .transfer w ∈
        (doPhysPwdown lostReadReplies 0 (.start 0 fun _ => 0)).log ∧
      w.WritesBmcr ∧ w.data = 0xffff) ∧
      ¬ HonestPwdown
        (doPhysPwdown lostReadReplies 0 (.start 0 fun _ => 0)).log
        (mdioBase 0) := by
  have logged := doPhysPwdown_log lostReadReplies 0 0 fun _ => 0
  have ready : Ready lostReadReplies 0 0 := by decide
  have adjacent := logged.events 0 (by decide) 0 ready
  constructor
  · exact ⟨_, adjacent.subset (List.mem_cons_of_mem _ List.mem_cons_self),
      writesBmcr_bmcrWrite, by decide⟩
  · intro honest
    have completes :=
      logged.backed.mp honest.backed 0 (by decide) 0 ready
    exact absurd completes (by decide)

end AuxLoader.Mdio
