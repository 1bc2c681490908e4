import AuxLoader.LzmaDecode.Bits

namespace AuxLoader.LzmaDecode

open Data

/-! What a stream is made of, and what it unpacks to. -/

/-- The last four distances, the latest first. -/
structure Reps where
  rep0 : Word
  rep1 : Word
  rep2 : Word
  rep3 : Word
  deriving DecidableEq

def Reps.push (distance : Word) (reps : Reps) : Reps :=
  ⟨distance, reps.rep0, reps.rep1, reps.rep2⟩

/-- One of the distances becomes the latest. -/
def Reps.recall : Fin 4 → Reps → Reps
  | 0, reps => reps
  | 1, reps => ⟨reps.rep1, reps.rep0, reps.rep2, reps.rep3⟩
  | 2, reps => ⟨reps.rep2, reps.rep0, reps.rep1, reps.rep3⟩
  | 3, reps => ⟨reps.rep3, reps.rep0, reps.rep1, reps.rep2⟩

/-- What has been unpacked so far; the state tells what the last packets have
been. -/
structure History where
  out : List Byte
  state : Nat
  reps : Reps
  deriving DecidableEq

def History.start : History := ⟨[], 0, 1, 1, 1, 1⟩

inductive Packet
  | literal (byte : Byte)
  /-- `len` bytes from a new distance back. -/
  | simple (distance : Word) (len : Nat)
  /-- One byte from the latest distance. -/
  | shortRep
  /-- `len` bytes from one of the last four distances. -/
  | longRep (index : Fin 4) (len : Nat)
  deriving DecidableEq

/-- A byte that is copied may be copied again in the same match. -/
def copyBack (distance : Nat) : Nat → List Byte → List Byte
  | 0, out => out
  | count + 1, out =>
      copyBack distance count (out ++ [out.getD (out.length - distance) 0])

def History.copy (count : Nat) (h : History) : History :=
  { h with out := copyBack h.reps.rep0.toNat count h.out }

def Packet.apply : Packet → History → History
  | .literal byte, h =>
      { h with out := h.out ++ [byte], state := literalState h.state }
  | .simple distance len, h =>
      { h with
        state := if h.state < kNumLitStates then 7 else 10
        reps := h.reps.push distance : History }.copy len
  | .shortRep, h =>
      { h with state := if h.state < kNumLitStates then 9 else 11 :
        History }.copy 1
  | .longRep index len, h =>
      { h with state := repState h.state, reps := h.reps.recall index :
        History }.copy len

def kMatchMaxLen : Nat := 273

/-- The packet says how much to copy, from somewhere in the output. -/
def Packet.Legal (h : History) : Packet → Prop
  | .literal _ => True
  | .simple distance len =>
      1 ≤ distance.toNat ∧ distance.toNat ≤ h.out.length ∧
        kMatchMinLen ≤ len ∧ len ≤ kMatchMaxLen
  | .shortRep => h.out ≠ []
  | .longRep index len =>
      (h.reps.recall index).rep0.toNat ≤ h.out.length ∧
        kMatchMinLen ≤ len ∧ len ≤ kMatchMaxLen

instance (h : History) : (packet : Packet) → Decidable (packet.Legal h)
  | .literal _ => .isTrue trivial
  | .simple _ _ => inferInstanceAs (Decidable (_ ∧ _))
  | .shortRep => inferInstanceAs (Decidable (_ ≠ _))
  | .longRep _ _ => inferInstanceAs (Decidable (_ ∧ _))

def expand (packets : List Packet) (h : History) : History :=
  packets.foldl (fun h packet => packet.apply h) h

/-- Every packet is legal and starts before the end of the output. -/
def Packs (outSize : Nat) : History → List Packet → Prop
  | _, [] => True
  | h, packet :: rest =>
      h.out.length < outSize ∧ packet.Legal h ∧
        Packs outSize (packet.apply h) rest

instance decidablePacks (outSize : Nat) :
    (h : History) → (packets : List Packet) →
      Decidable (Packs outSize h packets)
  | _, [] => .isTrue trivial
  | h, packet :: rest =>
      have := decidablePacks outSize (packet.apply h) rest
      inferInstanceAs (Decidable (_ ∧ _ ∧ _))

/-- How a stream ends: with its last packet, when there is no room for more, or
with a marker that has a length like a match. -/
abbrev Ending := Option Nat

def Ending.Legal (outSize length : Nat) : Ending → Prop
  | none => outSize ≤ length
  | some len => length < outSize ∧ kMatchMinLen ≤ len ∧ len ≤ kMatchMaxLen

instance (outSize length : Nat) :
    (ending : Ending) → Decidable (ending.Legal outSize length)
  | none => inferInstanceAs (Decidable (_ ≤ _))
  | some _ => inferInstanceAs (Decidable (_ ∧ _))

/-! The bits of a stream. -/

def longRepBits : Fin 4 → List Bool
  | 0 => [true, true, false, true]
  | 1 => [true, true, true, false]
  | 2 => [true, true, true, true, false]
  | 3 => [true, true, true, true, true]

def simpleBits (distance : Word) (len : Nat) : List Bool :=
  true :: false ::
    (lenBits (len - kMatchMinLen) ++ distanceBits (distance - 1).toNat)

def Packet.bits : Packet → List Bool
  | .literal byte => false :: bitsDown 8 byte.toNat
  | .simple distance len => simpleBits distance len
  | .shortRep => [true, true, false, false]
  | .longRep index len => longRepBits index ++ lenBits (len - kMatchMinLen)

/-- The marker is a match at the distance 0. -/
def Ending.bits : Ending → List Bool
  | none => []
  | some len => simpleBits 0 len

def streamBits (packets : List Packet) (ending : Ending) : List Bool :=
  packets.flatMap Packet.bits ++ ending.bits

/-! Copies. -/

theorem length_copyBack (distance count : Nat) (out : List Byte) :
    (copyBack distance count out).length = out.length + count := by
  induction count generalizing out with
  | zero => rfl
  | succ count ih =>
      rw [copyBack, ih, List.length_append, List.length_singleton]
      omega

theorem copyBack_grows (distance count : Nat) (out : List Byte) :
    out <+: copyBack distance count out := by
  induction count generalizing out with
  | zero => exact List.prefix_rfl
  | succ count ih => exact (List.prefix_append out _).trans (ih _)

end AuxLoader.LzmaDecode
