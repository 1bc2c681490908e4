import AuxLoader.LzmaDecode.Packets

namespace AuxLoader.LzmaDecode

open Data

/-! A round of the main loop is a packet. -/

/-- The variables of the main loop. -/
def History.vars (h : History) : Vars where
  nowPos := BitVec.ofNat 32 h.out.length
  previousByte := h.out.getLastD 0
  state := h.state
  rep0 := h.reps.rep0
  rep1 := h.reps.rep1
  rep2 := h.reps.rep2
  rep3 := h.reps.rep3

def History.Sound (h : History) : Prop := h.vars.Sound h.out.length

/-- What there is no room for is left out. -/
def History.cut (outSize : Nat) (h : History) : History :=
  { h with out := h.out.take outSize }

section Copies

variable {outSize : Word} {bits : List Bool} {last : List Byte} {h : History}

/-- The positions do not wrap. -/
theorem toNat_nowPos (room : h.out.length ≤ outSize.toNat) :
    h.vars.nowPos.toNat = h.out.length := by
  have top := outSize.isLt
  rw [History.vars, BitVec.toNat_ofNat, Nat.mod_eq_of_lt (by omega)]

theorem nowPos_succ (byte : Byte) :
    h.vars.nowPos + 1 =
      ({ h with out := h.out ++ [byte] } : History).vars.nowPos := by
  rw [History.vars, History.vars, List.length_append]
  exact (BitVec.ofNat_add _ _).symm

theorem tells_load_back {byte : Byte} (room : h.out.length ≤ outSize.toNat)
    (positive : 1 ≤ h.reps.rep0.toNat)
    (far : h.reps.rep0.toNat ≤ h.out.length) :
    h.out[(h.vars.nowPos - h.vars.rep0).toNat]? = some byte ↔
      byte = h.out.getD (h.out.length - h.reps.rep0.toNat) 0 := by
  have back : (h.vars.nowPos - h.vars.rep0).toNat =
      h.out.length - h.reps.rep0.toNat := by
    have here := toNat_nowPos room
    change (h.vars.nowPos - h.reps.rep0).toNat = _
    bv_omega
  rw [back, List.getD_eq_getElem?_getD,
    List.getElem?_eq_getElem (show h.out.length - h.reps.rep0.toNat <
      h.out.length by omega)]
  constructor
  · intro same
    cases same
    rfl
  · rintro rfl
    rfl

theorem tells_copyByte {v : Vars} (room : h.out.length ≤ outSize.toNat)
    (positive : 1 ≤ h.reps.rep0.toNat)
    (far : h.reps.rep0.toNat ≤ h.out.length) :
    Tells (copyByte h.vars) bits h.out v last ↔
      bits = [] ∧ last = (h.copy 1).out ∧ v = (h.copy 1).vars := by
  rw [copyByte, tells_load_bind]
  have moves (byte : Byte) :
      { h.vars with nowPos := h.vars.nowPos + 1, previousByte := byte } =
        ({ h with out := h.out ++ [byte] } : History).vars := by
    rw [nowPos_succ byte]
    simp [History.vars, List.getLastD_eq_getLast?]
  constructor
  · rintro ⟨byte, present, tells⟩
    obtain ⟨_, rfl, rfl, rfl⟩ := tells_store_bind.mp tells
    rw [tells_load_back room positive far] at present
    subst present
    exact ⟨rfl, rfl, moves _⟩
  · rintro ⟨rfl, rfl, rfl⟩
    refine ⟨_, (tells_load_back room positive far).mpr rfl,
      tells_store_bind.mpr ⟨toNat_nowPos room, rfl, moves _, rfl⟩⟩

theorem History.cut_eq {outSize : Nat} (fits : h.out.length ≤ outSize) :
    h.cut outSize = h := by
  rw [cut, List.take_of_length_le fits]

/-- Of a copy from the end of the output on, nothing is left. -/
theorem History.cut_copy {outSize : Nat} (full : h.out.length = outSize)
    (count : Nat) : (h.copy count).cut outSize = h := by
  have grows := copyBack_grows h.reps.rep0.toNat count h.out
  rw [cut, copy, ← full, ← List.prefix_iff_eq_take.mp grows]

/-- A match stops at the end of the output. -/
theorem tells_copyMatch {v : Vars} {len : Nat}
    (room : h.out.length < outSize.toNat) (positive : 1 ≤ h.reps.rep0.toNat)
    (far : h.reps.rep0.toNat ≤ h.out.length) :
    Tells (copyMatch outSize (len + 1) h.vars) bits h.out v last ↔
      bits = [] ∧ last = ((h.copy (len + 1)).cut outSize.toNat).out ∧
        v = ((h.copy (len + 1)).cut outSize.toNat).vars := by
  induction len using Nat.strongRecOn generalizing h bits with | ind len ih
  have long : (h.copy 1).out.length = h.out.length + 1 :=
    length_copyBack _ 1 h.out
  have more : (h.copy 1).vars.nowPos < outSize ↔
      h.out.length + 1 < outSize.toNat := by
    rw [BitVec.lt_def, @toNat_nowPos outSize _ (by omega), long]
  have rest {bits : List Bool} :
      Tells (if len ≠ 0 ∧ (h.copy 1).vars.nowPos < outSize then
          copyMatch outSize len (h.copy 1).vars
        else .done (h.copy 1).vars) bits (h.copy 1).out v last ↔
        bits = [] ∧ last = ((h.copy (len + 1)).cut outSize.toNat).out ∧
          v = ((h.copy (len + 1)).cut outSize.toNat).vars := by
    change _ ↔ bits = [] ∧
      last = (((h.copy 1).copy len).cut outSize.toNat).out ∧
        v = (((h.copy 1).copy len).cut outSize.toNat).vars
    by_cases continues : len ≠ 0 ∧ h.out.length + 1 < outSize.toNat
    · rw [if_pos ⟨continues.1, more.mpr continues.2⟩]
      obtain ⟨fewer, rfl⟩ := Nat.exists_eq_succ_of_ne_zero continues.1
      exact ih fewer (Nat.lt_succ_self _) (by omega) positive
        (by rw [long]; exact Nat.le_succ_of_le far)
    · rw [if_neg fun both => continues ⟨both.1, more.mp both.2⟩]
      have ended : ((h.copy 1).copy len).cut outSize.toNat = h.copy 1 := by
        by_cases none : len = 0
        · rw [none]
          exact History.cut_eq (long.trans_le room)
        · exact History.cut_copy (by omega) len
      rw [ended]
      exact ⟨fun ⟨empty, same, out⟩ => ⟨empty, out.symm, same.symm⟩,
        fun ⟨empty, out, same⟩ => ⟨empty, same.symm, out.symm⟩⟩
  rw [copyMatch, tells_bind]
  constructor
  · rintro ⟨_, _, _, _, rfl, first, later⟩
    obtain ⟨rfl, rfl, rfl⟩ :=
      (tells_copyByte (Nat.le_of_lt room) positive far).mp first
    exact rest.mp later
  · intro ends
    exact ⟨[], bits, _, _, rfl,
      (tells_copyByte (Nat.le_of_lt room) positive far).mpr ⟨rfl, rfl, rfl⟩,
      rest.mpr ends⟩

theorem tells_finishMatch {result : Vars ⊕ Word} {len : Nat}
    (room : h.out.length < outSize.toNat) (positive : 1 ≤ h.reps.rep0.toNat) :
    Tells (finishMatch outSize len h.vars) bits h.out result last ↔
      h.reps.rep0.toNat ≤ h.out.length ∧ bits = [] ∧
        last = ((h.copy (len + kMatchMinLen)).cut outSize.toNat).out ∧
        result =
          .inl ((h.copy (len + kMatchMinLen)).cut outSize.toNat).vars := by
  have far : h.vars.rep0 > h.vars.nowPos ↔
      ¬ h.reps.rep0.toNat ≤ h.out.length := by
    rw [← toNat_nowPos (Nat.le_of_lt room)]
    exact Nat.not_le.symm
  rw [finishMatch]
  simp only [far]
  by_cases near : h.reps.rep0.toNat ≤ h.out.length
  · rw [if_neg (not_not.mpr near), tells_bind]
    constructor
    · rintro ⟨_, _, _, _, rfl, copies, rfl, rfl, rfl⟩
      obtain ⟨rfl, rfl, rfl⟩ := (tells_copyMatch room positive near).mp copies
      exact ⟨near, rfl, rfl, rfl⟩
    · rintro ⟨_, rfl, rfl, rfl⟩
      exact ⟨[], [], _, _, rfl,
        (tells_copyMatch room positive near).mpr ⟨rfl, rfl, rfl⟩, rfl, rfl, rfl⟩
  · rw [if_pos near]
    exact ⟨False.elim, fun ends => absurd ends.1 near⟩

/-- A match at a distance that is known. -/
theorem tells_decodeMatch_known {result : Vars ⊕ Word} {prob posState : Nat}
    (room : h.out.length < outSize.toNat) (positive : 1 ≤ h.reps.rep0.toNat)
    (known : ¬ h.state < 4) :
    Tells (decodeMatch outSize prob posState h.vars) bits h.out result last ↔
      ∃ len, (h.reps.rep0.toNat ≤ h.out.length ∧ kMatchMinLen ≤ len ∧
          len ≤ kMatchMaxLen) ∧
        bits = lenBits (len - kMatchMinLen) ∧
        last = ((h.copy len).cut outSize.toNat).out ∧
        result = .inl ((h.copy len).cut outSize.toNat).vars := by
  have min : kMatchMinLen = 2 := rfl
  have max : kMatchMaxLen = 273 := rfl
  rw [decodeMatch, tells_bind]
  simp only [show h.vars.state = h.state from rfl, if_neg known]
  constructor
  · rintro ⟨_, _, len, _, rfl, length, finish⟩
    obtain ⟨small, rfl, rfl⟩ := tells_decodeLen.mp length
    obtain ⟨far, rfl, rfl, rfl⟩ := (tells_finishMatch room positive).mp finish
    exact ⟨len + kMatchMinLen, ⟨far, by omega, by omega⟩,
      by rw [Nat.add_sub_cancel, List.append_nil], rfl, rfl⟩
  · rintro ⟨len, ⟨far, above, below⟩, rfl, rfl, rfl⟩
    have whole : len - kMatchMinLen + kMatchMinLen = len := by omega
    refine ⟨_, [], len - kMatchMinLen, h.out, (List.append_nil _).symm,
      tells_decodeLen.mpr ⟨by omega, rfl, rfl⟩, ?_⟩
    rw [tells_finishMatch room positive, whole]
    exact ⟨far, rfl, rfl, rfl⟩

/-- A match at a new distance, or the end marker. -/
theorem tells_decodeMatch_new {result : Vars ⊕ Word} {prob posState : Nat}
    (room : h.out.length < outSize.toNat) (new : h.state < 4) :
    Tells (decodeMatch outSize prob posState h.vars) bits h.out result last ↔
      (∃ distance len, Packet.Legal h (.simple distance len) ∧
        bits = lenBits (len - kMatchMinLen) ++
          distanceBits (distance - 1).toNat ∧
        let next : History :=
          { h with
            state := h.state + kNumLitStates
            reps := { h.reps with rep0 := distance } }
        last = ((next.copy len).cut outSize.toNat).out ∧
        result = .inl ((next.copy len).cut outSize.toNat).vars) ∨
      ∃ len, (kMatchMinLen ≤ len ∧ len ≤ kMatchMaxLen) ∧
        bits =
          lenBits (len - kMatchMinLen) ++ distanceBits (0 - 1 : Word).toNat ∧
        last = h.out ∧ result = .inr h.vars.nowPos := by
  have min : kMatchMinLen = 2 := rfl
  have max : kMatchMaxLen = 273 := rfl
  rw [decodeMatch, tells_bind]
  simp only [show h.vars.state = h.state from rfl, if_pos new]
  constructor
  · rintro ⟨_, _, len, _, rfl, length, later⟩
    obtain ⟨small, rfl, rfl⟩ := tells_decodeLen.mp length
    obtain ⟨_, _, distance, _, rfl, spelt, ends⟩ := tells_bind.mp later
    obtain ⟨rfl, rfl⟩ := tells_decodeDistance.mp spelt
    split at ends
    next marker =>
      obtain ⟨rfl, rfl, rfl⟩ := ends
      have last : distance = 0 - 1 := by bv_omega
      exact .inr ⟨len + kMatchMinLen, ⟨by omega, by omega⟩,
        by rw [Nat.add_sub_cancel, List.append_nil, last], rfl, rfl⟩
    next present =>
      have positive : 1 ≤ (distance + 1).toNat := by
        have : (distance + 1).toNat ≠ 0 := fun zero => present (by bv_omega)
        omega
      obtain ⟨far, rfl, rfl, rfl⟩ := (tells_finishMatch
        (h := { h with
          state := h.state + kNumLitStates
          reps := { h.reps with rep0 := distance + 1 } })
        room positive).mp ends
      exact .inl ⟨distance + 1, len + kMatchMinLen,
        ⟨positive, far, by omega, by omega⟩,
        by rw [Nat.add_sub_cancel, List.append_nil, BitVec.add_sub_cancel],
        rfl, rfl⟩
  · rintro (⟨distance, len, ⟨positive, far, above, below⟩, rfl, rfl, rfl⟩ |
      ⟨len, ⟨above, below⟩, rfl, rfl, rfl⟩)
    · have whole : len - kMatchMinLen + kMatchMinLen = len := by omega
      refine ⟨_, _, len - kMatchMinLen, h.out, rfl,
        tells_decodeLen.mpr ⟨by omega, rfl, rfl⟩, ?_⟩
      refine tells_bind.mpr ⟨_, [], distance - 1, h.out,
        (List.append_nil _).symm, tells_decodeDistance.mpr ⟨rfl, rfl⟩, ?_⟩
      rw [BitVec.sub_add_cancel, if_neg (by bv_omega)]
      refine (tells_finishMatch
        (h := { h with
          state := h.state + kNumLitStates
          reps := { h.reps with rep0 := distance } })
        room positive).mpr ⟨far, rfl, ?_⟩
      rw [whole]
      exact ⟨rfl, rfl⟩
    · refine ⟨_, _, len - kMatchMinLen, h.out, rfl,
        tells_decodeLen.mpr ⟨by omega, rfl, rfl⟩, ?_⟩
      refine tells_bind.mpr ⟨_, [], 0 - 1, h.out, (List.append_nil _).symm,
        tells_decodeDistance.mpr ⟨rfl, rfl⟩, ?_⟩
      rw [if_pos (by decide)]
      exact ⟨rfl, rfl, rfl⟩

theorem tells_symbol {prob number : Nat} (sound : h.Sound)
    (room : h.out.length ≤ outSize.toNat) :
    Tells (matchedSymbol prob h.vars >>= literalBits prob 8) bits h.out number
        last ↔
      ∃ value, value < 2 ^ 8 ∧ number = 1 * 2 ^ 8 + value ∧
        bits = bitsDown 8 value ∧ last = h.out := by
  have begun : Begun 8 1 := ⟨by decide, by decide⟩
  unfold matchedSymbol
  split
  next late =>
    have some := sound.matched late
    have first := sound.rep0
    have far : h.vars.rep0.toNat ≤ h.out.length := by omega
    rw [Dialogue.bind_assoc, tells_load_bind]
    simp only [tells_load_back room first.1 far, exists_eq_left,
      tells_matchedBits (Nat.le_refl 8) begun]
  next => exact tells_literalBits (Nat.le_refl 8) begun

theorem tells_decodeLiteral {properties : CLzmaProperties} {v : Vars}
    (sound : h.Sound) (room : h.out.length ≤ outSize.toNat) :
    Tells (decodeLiteral properties h.vars) bits h.out v last ↔
      ∃ byte, bits = bitsDown 8 byte.toNat ∧
        last = ((Packet.literal byte).apply h).out ∧
        v = ((Packet.literal byte).apply h).vars := by
  have moves (byte : Byte) :
      { h.vars with
        nowPos := h.vars.nowPos + 1, previousByte := byte
        state := literalState h.vars.state } =
        ((Packet.literal byte).apply h).vars := by
    rw [nowPos_succ byte]
    simp [Packet.apply, History.vars, List.getLastD_eq_getLast?]
  have last_byte (value : Nat) :
      BitVec.ofNat 8 (1 * 2 ^ 8 + value) = BitVec.ofNat 8 value := by
    apply BitVec.eq_of_toNat_eq
    rw [BitVec.toNat_ofNat, BitVec.toNat_ofNat]
    omega
  unfold decodeLiteral
  simp only
  rw [← Dialogue.bind_assoc, tells_bind]
  constructor
  · rintro ⟨_, _, _, _, rfl, symbol, later⟩
    obtain ⟨value, small, rfl, rfl, rfl⟩ := (tells_symbol sound room).mp symbol
    obtain ⟨_, rfl, rfl, rfl⟩ := tells_store_bind.mp later
    rw [last_byte, moves]
    refine ⟨BitVec.ofNat 8 value, ?_, rfl, rfl⟩
    rw [BitVec.toNat_ofNat, Nat.mod_eq_of_lt small, List.append_nil]
  · rintro ⟨byte, rfl, rfl, rfl⟩
    refine ⟨_, [], _, h.out, (List.append_nil _).symm,
      (tells_symbol sound room).mpr ⟨byte.toNat, byte.isLt, rfl, rfl, rfl⟩, ?_⟩
    rw [last_byte, BitVec.ofNat_toNat, BitVec.setWidth_eq, moves]
    exact tells_store_bind.mpr ⟨toNat_nowPos room, rfl, rfl, rfl⟩

theorem tells_decodeShortRep {v : Vars} (sound : h.Sound)
    (room : h.out.length < outSize.toNat) :
    Tells (decodeShortRep h.vars) bits h.out v last ↔
      h.out ≠ [] ∧ bits = [] ∧ last = (Packet.shortRep.apply h).out ∧
        v = (Packet.shortRep.apply h).vars := by
  have empty : h.vars.nowPos = 0 ↔ h.out = [] := by
    have here := toNat_nowPos (Nat.le_of_lt room)
    rw [← List.length_eq_zero_iff, ← here]
    exact ⟨fun zero => by rw [zero]; rfl, fun zero => by bv_omega⟩
  rw [decodeShortRep]
  simp only [empty]
  by_cases none : h.out = []
  · rw [if_pos none]
    exact ⟨False.elim, fun ends => absurd none ends.1⟩
  · rw [if_neg none]
    have some := List.length_pos_iff.mpr none
    have first := sound.rep0
    have far : h.vars.rep0.toNat ≤ h.out.length := by omega
    have copies := @tells_copyByte outSize bits last
      { h with state := if h.state < kNumLitStates then 9 else 11 } v
      (Nat.le_of_lt room) first.1 far
    exact ⟨fun tells => ⟨none, copies.mp tells⟩, fun ends => copies.mpr ends.2⟩

theorem tells_decodeOlderRep {v : Vars} :
    Tells (decodeOlderRep h.vars) bits h.out v last ↔
      ∃ index : Fin 4, index ≠ 0 ∧
        true :: true :: true :: bits = longRepBits index ∧ last = h.out ∧
        v = ({ h with reps := h.reps.recall index } : History).vars := by
  rw [decodeOlderRep, tells_bit_bind]
  constructor
  · rintro ⟨b, rest, rfl, tells⟩
    cases b with
    | false =>
        obtain ⟨rfl, rfl, rfl⟩ := tells
        exact ⟨1, by decide, rfl, rfl, rfl⟩
    | true =>
        obtain ⟨b, rest, rfl, later⟩ := tells_bit_bind.mp tells
        cases b with
        | false =>
            obtain ⟨rfl, rfl, rfl⟩ := later
            exact ⟨2, by decide, rfl, rfl, rfl⟩
        | true =>
            obtain ⟨rfl, rfl, rfl⟩ := later
            exact ⟨3, by decide, rfl, rfl, rfl⟩
  · rintro ⟨index, older, spelt, rfl, rfl⟩
    match index, older with
    | 1, _ =>
        cases spelt
        exact ⟨false, [], rfl, rfl, rfl, rfl⟩
    | 2, _ =>
        cases spelt
        exact ⟨true, [false], rfl, tells_bit_bind.mpr
          ⟨false, [], rfl, rfl, rfl, rfl⟩⟩
    | 3, _ =>
        cases spelt
        exact ⟨true, [true], rfl, tells_bit_bind.mpr
          ⟨true, [], rfl, rfl, rfl, rfl⟩⟩

/-- A round outputs what a packet makes. -/
def Outputs (outSize : Word) (h : History) (packet : Packet)
    (result : Vars ⊕ Word) (last : List Byte) : Prop :=
  packet.Legal h ∧ last = ((packet.apply h).cut outSize.toNat).out ∧
    result = .inl ((packet.apply h).cut outSize.toNat).vars

theorem tells_longRep {result : Vars ⊕ Word} {posState : Nat} {index : Fin 4}
    (room : h.out.length < outSize.toNat)
    (positive : 1 ≤ (h.reps.recall index).rep0.toNat) :
    Tells (decodeMatch outSize repLenCoder posState
        ({ h with state := repState h.state, reps := h.reps.recall index } :
          History).vars) bits h.out result last ↔
      ∃ len, bits = lenBits (len - kMatchMinLen) ∧
        Outputs outSize h (.longRep index len) result last := by
  have late : ¬ repState h.state < 4 := by
    unfold repState
    split <;> decide
  have spec := @tells_decodeMatch_known outSize bits last
    { h with state := repState h.state, reps := h.reps.recall index } result
    repLenCoder posState room positive late
  rw [spec]
  constructor
  · rintro ⟨len, legal, rfl, rfl, rfl⟩
    exact ⟨len, rfl, legal, rfl, rfl⟩
  · rintro ⟨len, rfl, legal, rfl, rfl⟩
    exact ⟨len, legal, rfl, rfl, rfl⟩

theorem tells_simple {result : Vars ⊕ Word} {posState : Nat}
    (room : h.out.length < outSize.toNat) :
    Tells (decodeMatch outSize lenCoder posState
        { h.vars with
          rep3 := h.vars.rep2, rep2 := h.vars.rep1, rep1 := h.vars.rep0
          state := if h.vars.state < kNumLitStates then 0 else 3 })
        bits h.out result last ↔
      (∃ distance len, true :: false :: bits = simpleBits distance len ∧
        Outputs outSize h (.simple distance len) result last) ∨
      ∃ len, (kMatchMinLen ≤ len ∧ len ≤ kMatchMaxLen) ∧
        true :: false :: bits = simpleBits 0 len ∧ last = h.out ∧
        result = .inr h.vars.nowPos := by
  have early : (if h.vars.state < kNumLitStates then 0 else 3) < 4 := by
    split <;> decide
  have state : (if h.vars.state < kNumLitStates then 0 else 3) + kNumLitStates =
      if h.state < kNumLitStates then 7 else 10 := by
    change (if h.state < kNumLitStates then 0 else 3) + kNumLitStates = _
    split <;> rfl
  have spec := @tells_decodeMatch_new outSize bits last
    { h with
      state := if h.vars.state < kNumLitStates then 0 else 3
      reps := ⟨h.reps.rep0, h.reps.rep0, h.reps.rep1, h.reps.rep2⟩ }
    result lenCoder posState room early
  simp only [state] at spec
  refine Iff.trans spec (or_congr ?_ ?_)
  · constructor
    · rintro ⟨distance, len, legal, rfl, rfl, rfl⟩
      exact ⟨distance, len, rfl, legal, rfl, rfl⟩
    · rintro ⟨distance, len, spelt, legal, rfl, rfl⟩
      exact ⟨distance, len, legal, (List.cons.inj (List.cons.inj spelt).2).2,
        rfl, rfl⟩
  · constructor
    · rintro ⟨len, legal, rfl, rfl, rfl⟩
      exact ⟨len, legal, rfl, rfl, rfl⟩
    · rintro ⟨len, legal, spelt, rfl, rfl⟩
      exact ⟨len, legal, (List.cons.inj (List.cons.inj spelt).2).2, rfl, rfl⟩

theorem History.Sound.recall_pos (sound : h.Sound) (index : Fin 4) :
    1 ≤ (h.reps.recall index).rep0.toNat := by
  match index with
  | 0 => exact sound.rep0.1
  | 1 => exact sound.rep1.1
  | 2 => exact sound.rep2.1
  | 3 => exact sound.rep3.1

theorem tells_olderRep {result : Vars ⊕ Word} {posState : Nat}
    (sound : h.Sound) (room : h.out.length < outSize.toNat) :
    Tells (decodeOlderRep h.vars >>= fun v =>
        decodeMatch outSize repLenCoder posState
          { v with state := repState v.state }) bits h.out result last ↔
      ∃ index len, index ≠ 0 ∧
        true :: true :: true :: bits = Packet.bits (.longRep index len) ∧
        Outputs outSize h (.longRep index len) result last := by
  have long (index : Fin 4) {bits : List Bool} :=
    @tells_longRep outSize bits last h result posState index room
      (sound.recall_pos index)
  rw [tells_bind]
  constructor
  · rintro ⟨_, _, v, _, rfl, older, later⟩
    obtain ⟨index, some, spelt, rfl, rfl⟩ := tells_decodeOlderRep.mp older
    obtain ⟨len, rfl, outputs⟩ := (long index).mp later
    refine ⟨index, len, some, ?_, outputs⟩
    rw [Packet.bits, ← spelt]
    rfl
  · rintro ⟨index, len, some, spelt, outputs⟩
    obtain ⟨older, whole⟩ : ∃ older,
        longRepBits index = true :: true :: true :: older := by
      match index, some with
      | 1, _ => exact ⟨_, rfl⟩
      | 2, _ => exact ⟨_, rfl⟩
      | 3, _ => exact ⟨_, rfl⟩
    rw [Packet.bits, whole] at spelt
    cases spelt
    exact ⟨older, _, _, h.out, rfl,
      tells_decodeOlderRep.mpr ⟨index, some, whole.symm, rfl, rfl⟩,
      (long index).mpr ⟨len, rfl, outputs⟩⟩

theorem outputs_literal {byte : Byte} {result : Vars ⊕ Word}
    (room : h.out.length < outSize.toNat) :
    Outputs outSize h (.literal byte) result last ↔
      last = ((Packet.literal byte).apply h).out ∧
        result = .inl ((Packet.literal byte).apply h).vars := by
  have fits : ((Packet.literal byte).apply h).out.length ≤ outSize.toNat := by
    rw [Packet.apply, List.length_append]
    exact room
  rw [Outputs, History.cut_eq fits]
  exact and_iff_right trivial

theorem outputs_shortRep {result : Vars ⊕ Word}
    (room : h.out.length < outSize.toNat) :
    Outputs outSize h .shortRep result last ↔
      h.out ≠ [] ∧ last = (Packet.shortRep.apply h).out ∧
        result = .inl (Packet.shortRep.apply h).vars := by
  have fits : (Packet.shortRep.apply h).out.length ≤ outSize.toNat :=
    (length_copyBack _ 1 h.out).trans_le room
  rw [Outputs, History.cut_eq fits]
  exact Iff.rfl

/-- A round is a packet or the end marker, and every packet is a round. -/
theorem tells_decodeRound {properties : CLzmaProperties}
    {result : Vars ⊕ Word} (sound : h.Sound)
    (room : h.out.length < outSize.toNat) :
    Tells (decodeRound properties outSize h.vars) bits h.out result last ↔
      (∃ packet : Packet, bits = packet.bits ∧
        Outputs outSize h packet result last) ∨
      ∃ len, (kMatchMinLen ≤ len ∧ len ≤ kMatchMaxLen) ∧
        bits = simpleBits 0 len ∧ last = h.out ∧
        result = .inr h.vars.nowPos := by
  rw [decodeRound, tells_bit_bind]
  constructor
  · rintro ⟨b, rest, rfl, tells⟩
    cases b with
    | false =>
        obtain ⟨_, _, v, _, rfl, literal, rfl, rfl, rfl⟩ := tells_bind.mp tells
        obtain ⟨byte, rfl, rfl, rfl⟩ :=
          (tells_decodeLiteral sound (Nat.le_of_lt room)).mp literal
        exact .inl ⟨.literal byte, by rw [List.append_nil]; rfl,
          (outputs_literal room).mpr ⟨rfl, rfl⟩⟩
    | true =>
        obtain ⟨b, rest, rfl, isRep⟩ := tells_bit_bind.mp tells
        cases b with
        | false =>
            obtain ⟨distance, len, spelt, outputs⟩ | marker :=
              (tells_simple room).mp isRep
            · exact .inl ⟨.simple distance len, spelt, outputs⟩
            · exact .inr marker
        | true =>
            obtain ⟨b, rest, rfl, isRepG0⟩ := tells_bit_bind.mp isRep
            cases b with
            | false =>
                obtain ⟨b, rest, rfl, isRep0Long⟩ := tells_bit_bind.mp isRepG0
                cases b with
                | false =>
                    obtain ⟨_, _, v, _, rfl, short, rfl, rfl, rfl⟩ :=
                      tells_bind.mp isRep0Long
                    obtain ⟨some, rfl, rfl, rfl⟩ :=
                      (tells_decodeShortRep sound room).mp short
                    exact .inl ⟨.shortRep, rfl,
                      (outputs_shortRep room).mpr ⟨some, rfl, rfl⟩⟩
                | true =>
                    obtain ⟨len, rfl, outputs⟩ := (@tells_longRep outSize rest
                      last h result _ 0 room (sound.recall_pos 0)).mp isRep0Long
                    exact .inl ⟨.longRep 0 len, rfl, outputs⟩
            | true =>
                obtain ⟨index, len, _, spelt, outputs⟩ :=
                  (tells_olderRep sound room).mp isRepG0
                exact .inl ⟨.longRep index len, spelt, outputs⟩
  · rintro (⟨packet, rfl, outputs⟩ | ⟨len, legal, rfl, rfl, rfl⟩)
    · cases packet with
      | literal byte =>
          obtain ⟨rfl, rfl⟩ := (outputs_literal room).mp outputs
          exact ⟨false, _, rfl, tells_bind.mpr ⟨_, [], _, _,
            (List.append_nil _).symm, (tells_decodeLiteral sound
              (Nat.le_of_lt room)).mpr ⟨byte, rfl, rfl, rfl⟩, rfl, rfl, rfl⟩⟩
      | simple distance len =>
          exact ⟨true, _, rfl, tells_bit_bind.mpr ⟨false, _, rfl,
            (tells_simple room).mpr (.inl ⟨distance, len, rfl, outputs⟩)⟩⟩
      | shortRep =>
          obtain ⟨some, rfl, rfl⟩ := (outputs_shortRep room).mp outputs
          exact ⟨true, _, rfl, tells_bit_bind.mpr ⟨true, _, rfl,
            tells_bit_bind.mpr ⟨false, _, rfl, tells_bit_bind.mpr
              ⟨false, _, rfl, tells_bind.mpr ⟨[], [], _, _, rfl,
                (tells_decodeShortRep sound room).mpr ⟨some, rfl, rfl, rfl⟩,
                rfl, rfl, rfl⟩⟩⟩⟩⟩
      | longRep index len =>
          by_cases latest : index = 0
          · subst latest
            exact ⟨true, _, rfl, tells_bit_bind.mpr ⟨true, _, rfl,
              tells_bit_bind.mpr ⟨false, _, rfl, tells_bit_bind.mpr
                ⟨true, _, rfl, (tells_longRep room (sound.recall_pos 0)).mpr
                  ⟨len, rfl, outputs⟩⟩⟩⟩⟩
          · obtain ⟨bits, spelt⟩ : ∃ bits, Packet.bits (.longRep index len) =
                true :: true :: true :: bits := by
              match index, latest with
              | 1, _ => exact ⟨_, rfl⟩
              | 2, _ => exact ⟨_, rfl⟩
              | 3, _ => exact ⟨_, rfl⟩
            rw [spelt]
            exact ⟨true, _, rfl, tells_bit_bind.mpr ⟨true, _, rfl,
              tells_bit_bind.mpr ⟨true, _, rfl, (tells_olderRep sound room).mpr
                ⟨index, len, latest, spelt.symm, outputs⟩⟩⟩⟩
    · exact ⟨true, _, rfl, tells_bit_bind.mpr ⟨false, _, rfl,
        (tells_simple room).mpr (.inr ⟨len, legal, rfl, rfl, rfl⟩)⟩⟩

end Copies

/-! The main loop. -/

/-- The bits are those of packets with an ending, which unpack to `last`. -/
def Unpacks (outSize : Nat) (h : History) (bits : List Bool)
    (last : List Byte) : Prop :=
  ∃ packets ending, Packs outSize h packets ∧
    Ending.Legal outSize (expand packets h).out.length ending ∧
    bits = streamBits packets ending ∧
    last = (expand packets h).out.take outSize

section Loop

variable {size : Nat} {bits : List Bool} {last : List Byte} {h : History}

theorem unpacks_full (full : size ≤ h.out.length) :
    Unpacks size h bits last ↔ bits = [] ∧ last = h.out.take size := by
  constructor
  · rintro ⟨packets, ending, packs, legal, rfl, rfl⟩
    cases packets with
    | nil =>
        cases ending with
        | none => exact ⟨rfl, rfl⟩
        | some len => exact absurd legal.1 (Nat.not_lt.mpr full)
    | cons packet rest => exact absurd packs.1 (Nat.not_lt.mpr full)
  · rintro ⟨rfl, rfl⟩
    exact ⟨[], none, trivial, full, rfl, rfl⟩

theorem unpacks_room (room : h.out.length < size) :
    Unpacks size h bits last ↔
      (∃ (packet : Packet) (rest : List Bool), packet.Legal h ∧
        bits = packet.bits ++ rest ∧
        Unpacks size (packet.apply h) rest last) ∨
      ∃ len, (kMatchMinLen ≤ len ∧ len ≤ kMatchMaxLen) ∧
        bits = simpleBits 0 len ∧ last = h.out := by
  constructor
  · rintro ⟨packets, ending, packs, legal, rfl, rfl⟩
    cases packets with
    | nil =>
        cases ending with
        | none => exact absurd room (Nat.not_lt.mpr legal)
        | some len =>
            exact .inr ⟨len, legal.2, rfl,
              List.take_of_length_le (Nat.le_of_lt room)⟩
    | cons packet rest =>
        refine .inl ⟨packet, streamBits rest ending, packs.2.1, ?_, rest,
          ending, packs.2.2, legal, rfl, rfl⟩
        rw [streamBits, streamBits, List.flatMap_cons, List.append_assoc]
  · rintro (⟨packet, _, legal, rfl, rest, ending, packs, ends, rfl, rfl⟩ |
      ⟨len, legal, rfl, rfl⟩)
    · refine ⟨packet :: rest, ending, ⟨room, legal, packs⟩, ends, ?_, rfl⟩
      rw [streamBits, streamBits, List.flatMap_cons, List.append_assoc]
    · exact ⟨[], some len, trivial, ⟨room, legal⟩, rfl,
        (List.take_of_length_le (Nat.le_of_lt room)).symm⟩

/-- A match that has been cut off is the last one. -/
theorem unpacks_cut :
    Unpacks size (h.cut size) bits last ↔ Unpacks size h bits last := by
  by_cases fits : h.out.length ≤ size
  · rw [History.cut_eq fits]
  · have long := Nat.le_of_not_le fits
    have full : size ≤ (h.cut size).out.length := by
      rw [History.cut, List.length_take_of_le long]
    rw [unpacks_full full, unpacks_full long, History.cut, List.take_take,
      Nat.min_self]

/-- The main loop unpacks what packets and an ending say, and nothing else. -/
theorem tells_mainLoop {properties : CLzmaProperties} {outSize : Word}
    {result : Option Word} (valid : properties.Valid) {fuel : Nat}
    (sound : h.Sound) (below : h.out.length ≤ outSize.toNat)
    (enough : outSize.toNat - h.out.length < fuel) :
    Tells (mainLoop properties outSize fuel h.vars) bits h.out result last ↔
      Unpacks outSize.toNat h bits last ∧
        result = some (BitVec.ofNat 32 last.length) := by
  induction fuel generalizing h bits with
  | zero => exact absurd enough (Nat.not_lt_zero _)
  | succ fuel ih =>
      have more : h.vars.nowPos < outSize ↔ h.out.length < outSize.toNat := by
        rw [BitVec.lt_def, toNat_nowPos below]
      rw [mainLoop]
      simp only [more]
      by_cases room : h.out.length < outSize.toNat
      · rw [if_pos room, tells_bind, unpacks_room room]
        -- What a packet has been output for is sound again.
        have onward {first : List Bool} {packet : Packet}
            (legal : packet.Legal h) (spelt : first = packet.bits)
            {rest : List Bool} :
            Tells (mainLoop properties outSize fuel
                ((packet.apply h).cut outSize.toNat).vars) rest
                ((packet.apply h).cut outSize.toNat).out result last ↔
              Unpacks outSize.toNat (packet.apply h) rest last ∧
                result = some (BitVec.ofNat 32 last.length) := by
          have tells := (@tells_decodeRound outSize first _ h properties _
            sound room).mpr (.inl ⟨packet, spelt, legal, rfl, rfl⟩)
          obtain ⟨sound, longer, fits⟩ :=
            tells.keeps (decodeRound_keeps valid sound room)
          rw [ih sound fits (by omega), unpacks_cut]
        constructor
        · rintro ⟨first, rest, round, mid, rfl, tells, later⟩
          obtain ⟨packet, spelt, legal, rfl, rfl⟩ |
            ⟨len, legal, rfl, rfl, rfl⟩ :=
            (tells_decodeRound sound room).mp tells
          · obtain ⟨unpacks, same⟩ := (onward legal spelt).mp later
            exact ⟨.inl ⟨packet, rest, legal, by rw [spelt], unpacks⟩, same⟩
          · obtain ⟨rfl, rfl, rfl⟩ := later
            exact ⟨.inr ⟨len, legal, List.append_nil _, rfl⟩, rfl⟩
        · rintro ⟨⟨packet, rest, legal, rfl, unpacks⟩ |
            ⟨len, legal, rfl, rfl⟩, rfl⟩
          · exact ⟨_, rest, _, _, rfl,
              (tells_decodeRound sound room).mpr
                (.inl ⟨packet, rfl, legal, rfl, rfl⟩),
              (onward legal rfl).mpr ⟨unpacks, rfl⟩⟩
          · exact ⟨_, [], _, h.out, (List.append_nil _).symm,
              (tells_decodeRound sound room).mpr
                (.inr ⟨len, legal, rfl, rfl, rfl⟩), rfl, rfl, rfl⟩
      · have full := Nat.not_lt.mp room
        rw [if_neg room, unpacks_full full, List.take_of_length_le below]
        constructor
        · rintro ⟨rfl, rfl, rfl⟩
          exact ⟨⟨rfl, rfl⟩, rfl⟩
        · rintro ⟨⟨rfl, rfl⟩, rfl⟩
          exact ⟨rfl, rfl, rfl⟩

theorem tells_mainLoop_start {properties : CLzmaProperties} {outSize : Word}
    {result : Option Word} (valid : properties.Valid) :
    Tells (mainLoop properties outSize (outSize.toNat + 1) .start) bits []
        result last ↔
      Unpacks outSize.toNat .start bits last ∧
        result = some (BitVec.ofNat 32 last.length) :=
  @tells_mainLoop bits last .start properties outSize result valid _
    Vars.start_sound (Nat.zero_le _) (Nat.lt_succ_self outSize.toNat)

end Loop

end AuxLoader.LzmaDecode
