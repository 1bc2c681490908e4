import AuxLoader.LzmaDecode.Output
import AuxLoader.LzmaDecode.Rounds
import AuxLoader.LzmaDecode.Encoder

namespace AuxLoader.LzmaDecode

open Data RangeCoder

/-! The decoder unpacks what the encoder makes of packets. -/

/-- The input that is left, in the memory that the decoder was called with. -/
def Call.unread (call : Call) (mem : Memory) (s : RangeDecoder) : List Nat :=
  (List.range (call.inSize.toNat - call.consumed s)).map fun i =>
    (mem (s.buffer + BitVec.ofNat 32 i)).toNat

def decoderOf (call : Call) (mem : Memory) (s : RangeDecoder) : Decoder :=
  ⟨s.range.toNat, s.code.toNat, call.unread mem s⟩

/-- No two of the three regions overlap. -/
structure Call.Apart (call : Call) : Prop where
  table : call.TableApart
  input_output : ∀ a, Word.Within call.inStream call.inSize.toNat a →
    ¬ Word.Within call.outStream call.outSize.toNat a
  input_table : ∀ a, Word.Within call.inStream call.inSize.toNat a →
    ¬ Word.Within call.probs (2 * call.properties.numProbs) a

/-- The decoder is about to take the choices from its input, up to the tail. -/
structure Ready (call : Call) (mem : Memory) (tail : List Nat)
    (out : List Byte) (table : Nat → BitVec 16) (choices : List (Split × Bool))
    (s : RangeDecoder) : Prop where
  shows : Shows call out s.mem
  table : ∀ prob, prob < call.properties.numProbs →
    s.mem.half (call.probAddress prob) = table prob
  input : ∀ a, Word.Within call.inStream call.inSize.toNat a →
    s.mem a = mem a
  consumed : call.consumed s ≤ call.inSize.toNat
  pending : (decoderOf call mem s).Pending (2 ^ 8) kTopValue.toNat choices
    tail

section Input

variable {call : Call} {mem : Memory} {s : RangeDecoder}

/-- The input is read while there is any. -/
theorem rcReadByte_unread {digit : Nat} {rest : List Nat}
    (input : ∀ a, Word.Within call.inStream call.inSize.toNat a →
      s.mem a = mem a)
    (consumed : call.consumed s ≤ call.inSize.toNat)
    (unread : call.unread mem s = digit :: rest) :
    ∃ byte log, byte.toNat = digit ∧
      rcReadByte call s =
        (some byte, { s with buffer := s.buffer + 1, log }) ∧
      ∀ t : RangeDecoder, t.buffer = s.buffer + 1 →
        call.consumed t ≤ call.inSize.toNat ∧ call.unread mem t = rest := by
  have more : call.consumed s < call.inSize.toNat := by
    by_contra none
    rw [Call.unread, show call.inSize.toNat - call.consumed s = 0 by omega]
      at unread
    cases unread
  obtain ⟨left, count⟩ : ∃ left,
      call.inSize.toNat - call.consumed s = left + 1 :=
    Nat.exists_eq_add_of_le' (by omega)
  rw [Call.unread, count, List.range_succ_eq_map, List.map_cons,
    List.map_map] at unread
  obtain ⟨first, others⟩ := List.cons.inj unread
  have here : s.buffer ≠ call.bufferLim := by
    intro all
    unfold Call.consumed Call.bufferLim at *
    bv_omega
  have inside : Word.Within call.inStream call.inSize.toNat s.buffer := more
  have byte : s.mem s.buffer = mem s.buffer := input _ inside
  refine ⟨s.mem s.buffer, _, ?_, if_neg here, ?_⟩
  · rw [byte, ← first, BitVec.add_zero]
  · intro t onward
    have next : call.consumed t = call.consumed s + 1 := by
      have top := call.inSize.isLt
      unfold Call.consumed at more ⊢
      rw [onward]
      bv_omega
    refine ⟨by omega, ?_⟩
    rw [Call.unread, next, onward,
      show call.inSize.toNat - (call.consumed s + 1) = left by omega, ← others]
    refine List.map_congr_left fun i _ => ?_
    rw [show (1 : Word) = BitVec.ofNat 32 1 from rfl, Word.add_ofNat_add_ofNat,
      Nat.add_comm]
    rfl

/-- A range below `kTopValue` has room for a further byte. -/
theorem rcNormalize_ready {d : Decoder}
    (input : ∀ a, Word.Within call.inStream call.inSize.toNat a →
      s.mem a = mem a)
    (consumed : call.consumed s ≤ call.inSize.toNat)
    (small : s.code.toNat < s.range.toNat)
    (normalizes : (decoderOf call mem s).normalize (2 ^ 8) kTopValue.toNat =
      some d) :
    ∃ t, rcNormalize call s = (some (), t) ∧ decoderOf call mem t = d ∧
      t.mem = s.mem ∧ call.consumed t ≤ call.inSize.toNat := by
  unfold Decoder.normalize at normalizes
  unfold rcNormalize
  have top : kTopValue.toNat = 2 ^ 24 := rfl
  by_cases narrow : s.range.toNat < kTopValue.toNat
  · rw [if_pos (show s.range < kTopValue from narrow)]
    rw [if_pos (show (decoderOf call mem s).range < _ from narrow)]
      at normalizes
    cases unread : call.unread mem s with
    | nil =>
        rw [show (decoderOf call mem s).input = [] from unread] at normalizes
        cases normalizes
    | cons digit rest =>
        rw [show (decoderOf call mem s).input = digit :: rest from unread]
          at normalizes
        cases normalizes
        obtain ⟨byte, log, rfl, reads, later⟩ :=
          rcReadByte_unread input consumed unread
        rw [reads]
        refine ⟨_, rfl, ?_, rfl, (later _ rfl).1⟩
        have range : (s.range <<< 8).toNat = s.range.toNat * 2 ^ 8 := by
          rw [BitVec.toNat_shiftLeft, Nat.shiftLeft_eq]
          exact Nat.mod_eq_of_lt (by omega)
        have code : (s.code <<< 8 ||| byte.setWidth 32).toNat =
            s.code.toNat * 2 ^ 8 + byte.toNat := by
          have small := byte.isLt
          rw [BitVec.toNat_or, BitVec.toNat_shiftLeft, BitVec.toNat_setWidth,
            Nat.mod_eq_of_lt (show byte.toNat < 2 ^ 32 by omega),
            Nat.mod_eq_of_lt (by rw [Nat.shiftLeft_eq]; omega),
            ← Nat.shiftLeft_add_eq_or_of_lt small, Nat.shiftLeft_eq]
        rw [decoderOf, range, code, (later _ rfl).2]
        rfl
  · rw [if_neg (show ¬ s.range < kTopValue from narrow)]
    rw [if_neg (show ¬ (decoderOf call mem s).range < _ from narrow)]
      at normalizes
    cases normalizes
    exact ⟨s, rfl, rfl, rfl, consumed⟩

end Input

section Choices

variable {call : Call} {mem : Memory} {tail : List Nat} {s : RangeDecoder}

/-- The arithmetic of a decision is that of the split. -/
theorem rcDecide_ready {prob : Nat} {p : BitVec 16} (fair : Fair p)
    (held : s.mem.half (call.probAddress prob) = p)
    (small : s.code.toNat < s.range.toNat) :
    ∃ t, rcDecide call prob s =
        (some ((decoderOf call mem s).choose (probSplit p)).1, t) ∧
      decoderOf call mem t = ((decoderOf call mem s).choose (probSplit p)).2 ∧
      t.mem = s.mem.setHalf (call.probAddress prob)
        (updated ((decoderOf call mem s).choose (probSplit p)).1 p) ∧
      t.buffer = s.buffer := by
  obtain ⟨low, part⟩ := probSplit_low fair s.range.toNat
  have bound : (s.range >>> kNumBitModelTotalBits *
      (s.mem.half (call.probAddress prob)).setWidth 32).toNat =
      (probSplit p).low s.range.toNat := by
    have top := s.range.isLt
    have below := p.isLt
    rw [held, low, BitVec.toNat_mul, BitVec.toNat_ushiftRight,
      BitVec.toNat_setWidth, Nat.shiftRight_eq_div_pow,
      Nat.mod_eq_of_lt (show p.toNat < 2 ^ 32 by omega)]
    exact Nat.mod_eq_of_lt (Nat.lt_of_le_of_lt part top)
  unfold rcDecide
  by_cases first : s.code.toNat < (probSplit p).low s.range.toNat
  · have below : s.code < s.range >>> kNumBitModelTotalBits *
        (s.mem.half (call.probAddress prob)).setWidth 32 := by
      rw [BitVec.lt_def, bound]
      exact first
    have chosen : (decoderOf call mem s).choose (probSplit p) = (false, _) :=
      if_pos first
    rw [chosen]
    refine ⟨_, if_pos below, ?_, by rw [held]; rfl, rfl⟩
    exact congrArg (Decoder.mk · _ _) bound
  · have above : ¬ s.code < s.range >>> kNumBitModelTotalBits *
        (s.mem.half (call.probAddress prob)).setWidth 32 := by
      rw [BitVec.lt_def, bound]
      exact first
    have chosen : (decoderOf call mem s).choose (probSplit p) = (true, _) :=
      if_neg first
    rw [chosen]
    refine ⟨_, if_neg above, ?_, by rw [held]; rfl, rfl⟩
    have range : (s.range - s.range >>> kNumBitModelTotalBits *
        (s.mem.half (call.probAddress prob)).setWidth 32).toNat =
        (probSplit p).high s.range.toNat := by
      have high : (probSplit p).high s.range.toNat =
        s.range.toNat - (probSplit p).low s.range.toNat := rfl
      have := s.range.isLt
      rw [BitVec.toNat_sub, bound, high]
      omega
    have code : (s.code - s.range >>> kNumBitModelTotalBits *
        (s.mem.half (call.probAddress prob)).setWidth 32).toNat =
        s.code.toNat - (probSplit p).low s.range.toNat := by
      have := s.code.isLt
      rw [BitVec.toNat_sub, bound]
      omega
    exact congr (congr (congrArg Decoder.mk range) code) rfl

theorem rcDirect_ready (small : s.code.toNat < s.range.toNat) :
    ∃ t, rcDirect s = (some ((decoderOf call mem s).choose directSplit).1, t) ∧
      decoderOf call mem t = ((decoderOf call mem s).choose directSplit).2 ∧
      t.mem = s.mem ∧ t.buffer = s.buffer := by
  have half : (s.range >>> 1).toNat = s.range.toNat / 2 := by
    rw [BitVec.toNat_ushiftRight, Nat.shiftRight_eq_div_pow]
  unfold rcDirect
  by_cases first : s.code.toNat < s.range.toNat / 2
  · have below : ¬ s.code ≥ s.range >>> 1 := by
      rw [ge_iff_le, BitVec.le_def, half]
      omega
    have chosen : (decoderOf call mem s).choose directSplit = (false, _) :=
      if_pos first
    rw [chosen]
    refine ⟨_, if_neg below, ?_, rfl, rfl⟩
    exact congrArg (Decoder.mk · _ _) half
  · have above : s.code ≥ s.range >>> 1 := by
      rw [ge_iff_le, BitVec.le_def, half]
      omega
    have chosen : (decoderOf call mem s).choose directSplit = (true, _) :=
      if_neg first
    rw [chosen]
    refine ⟨_, if_pos above, ?_, rfl, rfl⟩
    have code : (s.code - s.range >>> 1).toNat =
        s.code.toNat - s.range.toNat / 2 := by
      have := s.code.isLt
      rw [BitVec.toNat_sub, half]
      omega
    exact congr (congr (congrArg Decoder.mk half) code) rfl

/-- What is ready for a choice makes it. -/
theorem normalized_ready {out : List Byte} {table : Nat → BitVec 16}
    {split : Split} {b : Bool} {choices : List (Split × Bool)}
    (ready : Ready call mem tail out table ((split, b) :: choices) s)
    (next : RangeDecoder → Option Bool × RangeDecoder) (after : Memory → Memory)
    (decides : ∀ u : RangeDecoder, u.mem = s.mem →
      u.code.toNat < u.range.toNat →
      ∃ t, next u = (some ((decoderOf call mem u).choose split).1, t) ∧
        decoderOf call mem t = ((decoderOf call mem u).choose split).2 ∧
        (((decoderOf call mem u).choose split).1 = b →
          t.mem = after s.mem) ∧
        t.buffer = u.buffer) :
    ∃ t, normalized call next s = (some b, t) ∧ t.mem = after s.mem ∧
      call.consumed t ≤ call.inSize.toNat ∧
      (decoderOf call mem t).Pending (2 ^ 8) kTopValue.toNat choices tail := by
  obtain ⟨d, normalizes, holds⟩ := ready.pending.normalize
  obtain ⟨u, runs, rfl, same, consumed⟩ := rcNormalize_ready ready.input
    ready.consumed ready.pending.code_lt normalizes
  obtain ⟨t, answers, state, changed, place⟩ := decides u same holds.code_lt
  obtain ⟨told, pending⟩ := holds.choose (by decide)
  rw [told] at answers
  refine ⟨t, ?_, changed told, ?_, state ▸ pending⟩
  · rw [normalized, runs]
    exact answers
  · rw [Call.consumed, place]
    exact consumed

end Choices

section Answers

variable {call : Call} {mem : Memory} {tail : List Nat} {s : RangeDecoder}
  {out : List Byte} {table : Nat → BitVec 16} {choices : List (Split × Bool)}

/-- The probabilities have places of their own. -/
theorem probAddress_apart (valid : call.properties.Valid) {i j : Nat}
    (first : i < call.properties.numProbs)
    (second : j < call.properties.numProbs) (different : i ≠ j) {a : Word}
    (near : Word.Within (call.probAddress i) 2 a) :
    ¬ Word.Within (call.probAddress j) 2 a := by
  have small : call.properties.numProbs ≤ 1846 + 768 * 2 ^ 12 := by
    rw [call.properties.numProbs_eq]
    have := Nat.pow_le_pow_right (show 0 < 2 by decide)
      (Nat.add_le_add valid.lc valid.lp)
    omega
  unfold Word.Within Call.probAddress at *
  bv_omega

theorem Ready.setHalf (ready : Ready call mem tail out table choices s)
    (valid : call.properties.Valid) (apart : call.Apart) {prob : Nat}
    (inside : prob < call.properties.numProbs) {value : BitVec 16}
    {rest : List (Split × Bool)} {t : RangeDecoder}
    (changed : t.mem = s.mem.setHalf (call.probAddress prob) value)
    (consumed : call.consumed t ≤ call.inSize.toNat)
    (pending : (decoderOf call mem t).Pending (2 ^ 8) kTopValue.toNat rest
      tail) :
    Ready call mem tail out (Function.update table prob value) rest t where
  shows := changed ▸ ready.shows.setHalf apart.table inside value
  table := by
    intro other bound
    rw [changed]
    by_cases same : other = prob
    · rw [same, Memory.half_setHalf_same, Function.update_self]
    · rw [Function.update_of_ne same, ← ready.table other bound]
      refine Memory.half_congr fun a near => ?_
      exact Memory.setHalf_outside _ _
        (probAddress_apart valid bound inside same near)
  input := by
    intro a input
    rw [changed, Memory.setHalf_outside _ _ fun near =>
      apart.input_table a input (within_table inside near)]
    exact ready.input a input
  consumed := consumed
  pending := pending

theorem Ready.bit (valid : call.properties.Valid) (apart : call.Apart)
    {prob : Nat} (inside : prob < call.properties.numProbs)
    (fair : Fair (table prob)) {b : Bool}
    (ready : Ready call mem tail out table
      ((probSplit (table prob), b) :: choices) s) :
    ∃ t, answer call (.bit prob) s = (some b, t) ∧
      Ready call mem tail out
        (Function.update table prob (updated b (table prob))) choices t := by
  obtain ⟨t, answers, changed, consumed, pending⟩ :=
    normalized_ready ready (rcDecide call prob)
      (fun now => now.setHalf (call.probAddress prob) (updated b (table prob)))
      fun u same small => by
        have held : u.mem.half (call.probAddress prob) = table prob := by
          rw [same]
          exact ready.table prob inside
        obtain ⟨t, decides, state, changed, place⟩ :=
          @rcDecide_ready call mem u prob _ fair held small
        exact ⟨t, decides, state,
          fun told => by rw [changed, told, same], place⟩
  exact ⟨t, answers, ready.setHalf valid apart inside changed consumed pending⟩

theorem Ready.directBit {b : Bool}
    (ready : Ready call mem tail out table ((directSplit, b) :: choices) s) :
    ∃ t, answer call .directBit s = (some b, t) ∧
      Ready call mem tail out table choices t := by
  obtain ⟨t, answers, changed, consumed, pending⟩ :=
    normalized_ready ready rcDirect id fun u same small => by
      obtain ⟨t, decides, state, changed, place⟩ :=
        @rcDirect_ready call mem u small
      exact ⟨t, decides, state, fun _ => changed.trans same, place⟩
  exact ⟨t, answers, {
    shows := changed ▸ ready.shows
    table := fun prob bound => changed ▸ ready.table prob bound
    input := fun a input => changed ▸ ready.input a input
    consumed := consumed
    pending := pending }⟩

theorem Ready.load (ready : Ready call mem tail out table choices s)
    {index : Word} {byte : Byte} (present : out[index.toNat]? = some byte) :
    ∃ t, answer call (.load index) s = (some byte, t) ∧
      Ready call mem tail out table choices t := by
  have before := (List.getElem?_eq_some_iff.mp present).1
  have same := (ready.shows.load before).symm.trans present
  refine ⟨s.emit (.load (call.outStream + index)), ?_, { ready with }⟩
  rw [← Option.some.inj same]
  rfl

theorem Ready.store (apart : call.Apart)
    (ready : Ready call mem tail out table choices s) {index : Word}
    {byte : Byte} (here : index.toNat = out.length)
    (room : out.length < call.outSize.toNat) :
    ∃ t, answer call (.store index byte) s = (some (), t) ∧
      Ready call mem tail (out ++ [byte]) table choices t := by
  have output : Word.Within call.outStream call.outSize.toNat
      (call.outStream + index) := by
    have top := call.outSize.isLt
    unfold Word.Within
    bv_omega
  exact ⟨_, rfl, {
    shows := ready.shows.store here room byte
    table := by
      intro prob bound
      rw [← ready.table prob bound]
      refine Memory.half_congr fun a near => Memory.setByte_other _ byte ?_
      rintro rfl
      exact apart.table _ output (within_table bound near)
    input := by
      intro a input
      refine (Memory.setByte_other _ byte ?_).trans (ready.input a input)
      rintro rfl
      exact apart.input_output _ input output
    consumed := ready.consumed
    pending := ready.pending }⟩

/-- The bits that a program goes by make choices in the contexts that it asks
for, and a decoder that is ready for these makes them. -/
theorem Tells.ready {α : Type} {program : Decoding α} {bits : List Bool}
    {last : List Byte} {value : α} (tells : Tells program bits out value last)
    (fair : ∀ prob, Fair (table prob)) :
    ∃ now, ∀ call mem post, call.properties.Valid → call.Apart →
      program.Keeps (contract call.properties.numProbs call.outSize) post
        out.length →
      ∀ tail s rest, Ready call mem tail out table
          (choicesFrom table (asked program bits out) bits ++ rest) s →
        ∃ t, program.run (answer call) s = (some value, t) ∧
          Ready call mem tail last now rest t := by
  induction program generalizing bits out table with
  | done result =>
      obtain ⟨rfl, rfl, rfl⟩ := tells
      exact ⟨table, fun _ _ _ _ _ _ tail s rest ready => ⟨s, rfl, ready⟩⟩
  | ask question next ih =>
      cases question with
      | bit prob =>
          obtain ⟨b, later, rfl, tells⟩ := tells
          obtain ⟨now, answers⟩ := ih b tells (fair_update fair prob b)
          refine ⟨now, fun call mem post valid apart keeps tail s rest ready =>
            ?_⟩
          obtain ⟨u, first, ready⟩ :=
            ready.bit valid apart keeps.1 (fair prob)
          obtain ⟨t, runs, ready⟩ :=
            answers call mem post valid apart (keeps.2 b) tail u rest ready
          exact ⟨t, (Dialogue.run_ask_some first).trans runs, ready⟩
      | directBit =>
          obtain ⟨b, later, rfl, tells⟩ := tells
          obtain ⟨now, answers⟩ := ih b tells fair
          refine ⟨now, fun call mem post valid apart keeps tail s rest ready =>
            ?_⟩
          obtain ⟨u, first, ready⟩ := ready.directBit
          obtain ⟨t, runs, ready⟩ :=
            answers call mem post valid apart (keeps.2 b) tail u rest ready
          exact ⟨t, (Dialogue.run_ask_some first).trans runs, ready⟩
      | load index =>
          obtain ⟨byte, present, tells⟩ := tells
          obtain ⟨now, answers⟩ := ih byte tells fair
          refine ⟨now, fun call mem post valid apart keeps tail s rest ready =>
            ?_⟩
          rw [asked_load_some present] at ready
          obtain ⟨u, first, ready⟩ := ready.load present
          obtain ⟨t, runs, ready⟩ := answers call mem post valid apart
            (keeps.2 byte) tail u rest ready
          exact ⟨t, (Dialogue.run_ask_some first).trans runs, ready⟩
      | store index byte =>
          obtain ⟨here, tells⟩ := tells
          obtain ⟨now, answers⟩ := ih () tells fair
          refine ⟨now, fun call mem post valid apart keeps tail s rest ready =>
            ?_⟩
          obtain ⟨u, first, ready⟩ := ready.store apart here keeps.1.2
          obtain ⟨t, runs, ready⟩ := answers call mem post valid apart
            (by rw [List.length_append]; exact keeps.2 ()) tail u rest ready
          exact ⟨t, (Dialogue.run_ask_some first).trans runs, ready⟩
      | dataError => exact tells.elim

end Answers

section Start

variable {call : Call} {mem : Memory} {s : RangeDecoder}

theorem initProbs_prefix (valid : call.properties.Valid) {count : Nat}
    (inside : count ≤ call.properties.numProbs) (s : RangeDecoder) :
    let t := (List.range count).foldl (fun s prob =>
      let address := call.probAddress prob
      let half := (kBitModelTotal >>> 1).setWidth 16
      { s with mem := s.mem.setHalf address half }.emit (.prob address)) s
    t.range = s.range ∧ t.code = s.code ∧ t.buffer = s.buffer ∧
      (∀ prob, prob < count → t.mem.half (call.probAddress prob) = halfProb) ∧
      ∀ a, ¬ Word.Within call.probs (2 * call.properties.numProbs) a →
        t.mem a = s.mem a := by
  induction count with
  | zero => exact ⟨rfl, rfl, rfl, nofun, fun _ _ => rfl⟩
  | succ count ih =>
      obtain ⟨range, code, buffer, table, outside⟩ := ih (Nat.le_of_lt inside)
      rw [List.range_succ, List.foldl_append]
      refine ⟨range, code, buffer, ?_, ?_⟩
      · intro prob bound
        by_cases last : prob = count
        · rw [last]
          exact Memory.half_setHalf_same _ _ _
        · rw [← table prob (by omega)]
          refine Memory.half_congr fun a near => ?_
          exact Memory.setHalf_outside _ _
            (probAddress_apart valid (by omega) inside last near)
      · intro a apart
        rw [← outside a apart]
        exact Memory.setHalf_outside _ _
          fun near => apart (within_table inside near)

/-- The code is the number that the digits make. -/
theorem rcInit_ready {rounds value code : Nat} {rest : List Nat}
    (input : ∀ a, Word.Within call.inStream call.inSize.toNat a →
      s.mem a = mem a)
    (consumed : call.consumed s ≤ call.inSize.toNat)
    (before : s.code = BitVec.ofNat 32 code)
    (unread : call.unread mem s = digits (2 ^ 8) rounds value ++ rest) :
    ∃ t, rcInit call rounds s = (some (), t) ∧
      t.code = BitVec.ofNat 32
        (code * (2 ^ 8) ^ rounds + value % (2 ^ 8) ^ rounds) ∧
      t.range = s.range ∧ t.mem = s.mem ∧
      call.consumed t ≤ call.inSize.toNat ∧ call.unread mem t = rest := by
  induction rounds generalizing s code with
  | zero =>
      refine ⟨s, rfl, ?_, rfl, rfl, consumed, unread⟩
      rw [before, Nat.pow_zero, Nat.mul_one, Nat.mod_one, Nat.add_zero]
  | succ rounds ih =>
      obtain ⟨byte, log, same, reads, later⟩ :=
        rcReadByte_unread input consumed unread
      let next : RangeDecoder := { s with
        buffer := s.buffer + 1, log
        code := s.code <<< 8 ||| byte.setWidth 32 }
      have onward : next.code =
          BitVec.ofNat 32 (code * 2 ^ 8 + byte.toNat) := by
        change s.code <<< 8 ||| byte.setWidth 32 = _
        have low : byte.setWidth 32 = BitVec.ofNat 32 byte.toNat := by
          apply BitVec.eq_of_toNat_eq
          rw [BitVec.toNat_setWidth, BitVec.toNat_ofNat]
        rw [before, ofNat_shiftLeft, low, ← BitVec.ofNat_or, ← Nat.shiftLeft_eq,
          Nat.shiftLeft_add_eq_or_of_lt byte.isLt]
      obtain ⟨within, others⟩ := later next rfl
      obtain ⟨t, inits, told, range, unchanged, within, left⟩ :=
        ih (s := next) input within onward others
      refine ⟨t, ?_, ?_, range, unchanged, within, left⟩
      · rw [rcInit, reads]
        exact inits
      · rw [told, same]
        congr 1
        have split := Nat.mod_mul (x := value) (a := (2 ^ 8) ^ rounds)
          (b := 2 ^ 8)
        rw [Nat.pow_succ (2 ^ 8) rounds, split]
        ring

end Start

section Stream

variable {call : Call} {mem : Memory}

theorem unread_of_holds {s : RangeDecoder} {bytes : List Byte}
    (holds : mem.Holds s.buffer bytes)
    (fits : bytes.length ≤ call.inSize.toNat - call.consumed s) :
    ∃ tail, call.unread mem s = bytes.map BitVec.toNat ++ tail ∧
      bytes.length + tail.length = call.inSize.toNat - call.consumed s := by
  obtain ⟨left, count⟩ := Nat.exists_eq_add_of_le fits
  refine ⟨(List.range left).map fun i =>
    (mem (s.buffer + BitVec.ofNat 32 (bytes.length + i))).toNat, ?_, ?_⟩
  · rw [Call.unread, count, List.range_add, List.map_append, List.map_map]
    congr 1
    refine List.ext_getElem (by simp) fun i bound _ => ?_
    rw [List.length_map, List.length_range] at bound
    rw [List.getElem_map, List.getElem_range, List.getElem_map,
      Memory.holds_iff.mp holds i bound]
  · rw [List.length_map, List.length_range, count]

/-- The first byte goes through the code. -/
theorem digits_five {first code : Nat} (byte : first < 2 ^ 8)
    (small : code < 2 ^ 32) :
    digits (2 ^ 8) 5 (code + first * (2 ^ 8) ^ 4) =
      first :: digits (2 ^ 8) 4 code := by
  rw [digits, digits_add_mul (by decide) (Nat.le_refl 4),
    Nat.add_mul_div_right _ _ (by decide),
    show (2 ^ 8) ^ 4 = 2 ^ 32 from rfl, Nat.div_eq_of_lt small, Nat.zero_add,
    Nat.mod_eq_of_lt byte]

/-- What stands for the choices is what the decoder takes in. -/
theorem ready_of_holds (valid : call.properties.Valid) (apart : call.Apart)
    {choices : List (Split × Bool)} {stream : List Byte} {first : Nat}
    {code : List Nat} (written : stream.map BitVec.toNat = first :: code)
    (codes : Codes (2 ^ 8) kTopValue.toNat 4 kInitialRange choices code)
    (holds : mem.Holds call.inStream stream)
    (fits : stream.length ≤ call.inSize.toNat) :
    ∃ tail t, stream.length + tail.length = call.inSize.toNat ∧
      rcInit call 5 (initProbs call ⟨0xFFFFFFFF, 0, call.inStream, mem, []⟩) =
        (some (), t) ∧
      Ready call mem tail [] (fun _ => halfProb) choices t := by
  obtain ⟨range, zero, buffer, table, outside⟩ :=
    initProbs_prefix valid (Nat.le_refl _)
      ⟨0xFFFFFFFF, 0, call.inStream, mem, []⟩
  change (initProbs call _).range = 0xFFFFFFFF at range
  change (initProbs call _).code = 0 at zero
  change (initProbs call _).buffer = call.inStream at buffer
  change ∀ prob, _ → (initProbs call _).mem.half _ = _ at table
  change ∀ a, _ → (initProbs call _).mem a = mem a at outside
  generalize initProbs call ⟨0xFFFFFFFF, 0, call.inStream, mem, []⟩ = s at *
  have none : call.consumed s = 0 := by
    rw [Call.consumed, buffer, BitVec.sub_self]
    rfl
  have input : ∀ a, Word.Within call.inStream call.inSize.toNat a →
      s.mem a = mem a :=
    fun a inside => outside a (apart.input_table a inside)
  obtain ⟨tail, unread, length⟩ := @unread_of_holds call mem s _
    (by rw [buffer]; exact holds) (by rw [none]; exact fits)
  obtain ⟨number, rest, spelt, pending⟩ := codes.pending tail
  have small : number < 2 ^ 32 :=
    Nat.lt_trans pending.code_lt (show kInitialRange < 2 ^ 32 by decide)
  have byte : first < 2 ^ 8 := by
    obtain ⟨b, _, _, rfl, _⟩ := List.map_eq_cons_iff.mp written
    exact b.isLt
  have whole : call.unread mem s =
      digits (2 ^ 8) 5 (number + first * (2 ^ 8) ^ 4) ++ rest := by
    rw [unread, written, digits_five byte small, List.cons_append,
      List.cons_append, spelt]
  obtain ⟨t, inits, told, same, unchanged, consumed, left⟩ :=
    @rcInit_ready call mem s _ _ 0 _ input
      (by rw [none]; exact Nat.zero_le _) zero whole
  refine ⟨tail, t, by omega, inits, ?_⟩
  have taken : t.code.toNat = number := by
    rw [told, Nat.zero_mul, Nat.zero_add, BitVec.toNat_ofNat]
    omega
  have start : decoderOf call mem t = ⟨kInitialRange, number, rest⟩ := by
    rw [decoderOf, taken, same, range, left]
    rfl
  exact {
    shows := ⟨Nat.zero_le _, trivial⟩
    table := fun prob bound => by rw [unchanged]; exact table prob bound
    input := fun a inside => by rw [unchanged]; exact input a inside
    consumed := consumed
    pending := start ▸ pending }

/-- With nothing left to choose, the decoder has come to the tail. -/
theorem finish_ready {s : RangeDecoder} {tail : List Nat} {out : List Byte}
    {table : Nat → BitVec 16} (ready : Ready call mem tail out table [] s)
    (nowPos : Word) :
    (finish call nowPos s).ret = lzmaResultOk ∧
      (finish call nowPos s).inSizeProcessed.toNat + tail.length =
        call.inSize.toNat ∧
      (finish call nowPos s).outSizeProcessed = nowPos ∧
      (finish call nowPos s).last.mem = s.mem := by
  obtain ⟨d, normalizes, holds⟩ := ready.pending.normalize
  obtain ⟨t, runs, same, unchanged, consumed⟩ := rcNormalize_ready ready.input
    ready.consumed ready.pending.code_lt normalizes
  have left : call.unread mem t = tail := by
    rw [← holds.input_eq, ← same]
    rfl
  have count : call.inSize.toNat - call.consumed t = tail.length := by
    rw [← left, Call.unread, List.length_map, List.length_range]
  rw [finish, runs]
  refine ⟨rfl, ?_, rfl, unchanged⟩
  change call.consumed t + tail.length = _
  omega

/-- A decoder that is ready for the choices of packets unpacks them. -/
theorem ready_packets {properties : CLzmaProperties} {outSize : Word}
    {packets : List Packet} {ending : Ending} (valid : properties.Valid)
    (packs : Packs outSize.toNat .start packets)
    (legal : Ending.Legal outSize.toNat (expand packets .start).out.length
      ending) :
    let out := (expand packets .start).out.take outSize.toNat
    let program := mainLoop properties outSize (outSize.toNat + 1) .start
    ∃ table, ∀ call mem post, call.properties.Valid → call.Apart →
      program.Keeps (contract call.properties.numProbs call.outSize) post 0 →
      ∀ tail s rest, Ready call mem tail [] (fun _ => halfProb)
          (choicesOf properties packets ending ++ rest) s →
        ∃ t, program.run (answer call) s =
            (some (some (BitVec.ofNat 32 out.length)), t) ∧
          Ready call mem tail out table rest t := by
  have tells := (tells_mainLoop_start valid).mpr
    ⟨⟨packets, ending, packs, legal, rfl, rfl⟩, rfl⟩
  rw [choicesOf, ← asked_mainLoop_start valid packs legal]
  exact tells.ready fun _ => halfProb_fair

theorem decodeFrom_ready {s t : RangeDecoder} {tail : List Nat}
    {out : List Byte} {table : Nat → BitVec 16}
    (runs : (mainLoop call.properties call.outSize (call.outSize.toNat + 1)
      .start).run (answer call) s =
        (some (some (BitVec.ofNat 32 out.length)), t))
    (ready : Ready call mem tail out table [] t) :
    (decodeFrom call s).ret = lzmaResultOk ∧
      (decodeFrom call s).inSizeProcessed.toNat + tail.length =
        call.inSize.toNat ∧
      (decodeFrom call s).outSizeProcessed.toNat = out.length ∧
      (decodeFrom call s).last.mem.Holds call.outStream out := by
  obtain ⟨ok, input, output, unchanged⟩ :=
    finish_ready ready (BitVec.ofNat 32 out.length)
  have fits := ready.shows.fits
  have top := call.outSize.isLt
  rw [decodeFrom, runs]
  refine ⟨ok, input, ?_, by rw [unchanged]; exact ready.shows.holds⟩
  rw [output, BitVec.toNat_ofNat]
  exact Nat.mod_eq_of_lt (by omega)

/-- The decoder takes a stream of the packets up to its end. -/
theorem decode_ready {packets : List Packet} {ending : Ending}
    (valid : call.properties.Valid) (apart : call.Apart)
    (packs : Packs call.outSize.toNat .start packets)
    (legal : Ending.Legal call.outSize.toNat (expand packets .start).out.length
      ending)
    {stream : List Byte}
    (encodes : Encodes call.properties packets ending stream)
    (holds : mem.Holds call.inStream stream)
    (fits : stream.length ≤ call.inSize.toNat) :
    let out := (expand packets .start).out.take call.outSize.toNat
    ∃ s t tail table, decode call mem = decodeFrom call s ∧
      (mainLoop call.properties call.outSize (call.outSize.toNat + 1)
        .start).run (answer call) s =
          (some (some (BitVec.ofNat 32 out.length)), t) ∧
      Ready call mem tail out table [] t ∧
      stream.length + tail.length = call.inSize.toNat := by
  obtain ⟨first, code, written, codes⟩ := encodes
  obtain ⟨tail, s, length, inits, ready⟩ :=
    ready_of_holds valid apart written codes holds fits
  obtain ⟨table, answers⟩ := ready_packets valid packs legal
  rw [← List.append_nil (choicesOf _ _ _)] at ready
  obtain ⟨t, runs, ready⟩ := answers call mem _ valid apart
    (mainLoop_start_keeps valid) tail s [] ready
  refine ⟨s, t, tail, table, ?_, runs, ready, length⟩
  unfold decode
  simp only
  rw [inits]

/-- What packets unpack to is what the decoder makes of every stream of them. -/
theorem decode_unpacks {packets : List Packet} {ending : Ending}
    {stream : List Byte} (valid : call.properties.Valid) (apart : call.Apart)
    (packs : Packs call.outSize.toNat .start packets)
    (legal : Ending.Legal call.outSize.toNat (expand packets .start).out.length
      ending)
    (encodes : Encodes call.properties packets ending stream)
    (holds : mem.Holds call.inStream stream)
    (fits : stream.length ≤ call.inSize.toNat) :
    (decode call mem).ret = lzmaResultOk ∧
      (decode call mem).inSizeProcessed.toNat = stream.length ∧
      (decode call mem).outSizeProcessed.toNat =
        min (expand packets .start).out.length call.outSize.toNat ∧
      (decode call mem).last.mem.Holds call.outStream
        ((expand packets .start).out.take call.outSize.toNat) := by
  obtain ⟨s, t, tail, table, starts, runs, ready, length⟩ :=
    decode_ready valid apart packs legal encodes holds fits
  obtain ⟨ok, input, output, held⟩ := decodeFrom_ready runs ready
  rw [starts]
  refine ⟨ok, by omega, ?_, held⟩
  rw [output, List.length_take, Nat.min_comm]

end Stream

def ababaPackets : List Packet := [.literal 97, .literal 98, .simple 2 3]

theorem ababaCall_apart : ababaCall.Apart where
  table := by
    intro a output
    rw [show 2 * ababaCall.properties.numProbs = 5228 from rfl]
    unfold Word.Within ababaCall at *
    bv_omega
  input_output := by
    intro a input
    unfold Word.Within ababaCall at *
    bv_omega
  input_table := by
    intro a input
    rw [show 2 * ababaCall.properties.numProbs = 5228 from rfl]
    unfold Word.Within ababaCall at *
    bv_omega

theorem ababaStream_eq :
    ababaStream =
      encodePackets ababaCall.properties ababaPackets (some 2) := by
  decide +kernel

theorem ababaStream_encodes :
    Encodes ababaCall.properties ababaPackets (some 2) ababaStream :=
  ababaStream_eq ▸ encodePackets_encodes

theorem decode_unpacks_ababa :
    (decode ababaCall ababaMemory).ret = lzmaResultOk ∧
      (decode ababaCall ababaMemory).inSizeProcessed.toNat = 13 ∧
      (decode ababaCall ababaMemory).outSizeProcessed.toNat = 5 ∧
      (decode ababaCall ababaMemory).last.mem.Holds 0x9000
        [97, 98, 97, 98, 97] :=
  @decode_unpacks ababaCall ababaMemory ababaPackets (some 2) ababaStream
    ababaCall_valid ababaCall_apart (by decide) (by decide) ababaStream_encodes
    (by decide) (by decide)

end AuxLoader.LzmaDecode
