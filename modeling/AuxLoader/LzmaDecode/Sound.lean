import AuxLoader.LzmaDecode.RoundTrip

namespace AuxLoader.LzmaDecode

open Data

/-! Whatever the decoder accepts is a sequence of packets. -/

/-- What the range decoder has answered. -/
def bit? : (question : Question) × question.Answer → Option Bool
  | ⟨.bit _, b⟩ => some b
  | ⟨.directBit, b⟩ => some b
  | _ => none

/-- The bits that the range decoder makes of the input, from its five bytes of
`RC_INIT` on. -/
def toldBits (call : Call) (mem : Memory) : List Bool :=
  let s := initProbs call
    { range := 0xFFFFFFFF, code := 0, buffer := call.inStream, mem := mem,
      log := [] }
  match rcInit call 5 s with
  | (none, _) => []
  | (some _, s) =>
      ((mainLoop call.properties call.outSize (call.outSize.toNat + 1)
        .start).transcript (answer call) s).filterMap bit?

section Run

variable {call : Call} {s t : RangeDecoder} {out : List Byte} {α : Type}

/-- The control flow takes the bits that the range decoder answers with for what
they say. -/
theorem tells_of_run (apart : call.TableApart) {program : Decoding α}
    {post : Nat → α → Prop}
    (keeps : program.Keeps (contract call.properties.numProbs call.outSize) post
      out.length)
    (shows : Shows call out s.mem) {value : α}
    (runs : program.run (answer call) s = (some value, t)) :
    ∃ last, Tells program
        ((program.transcript (answer call) s).filterMap bit?) out value last ∧
      Shows call last t.mem := by
  induction program generalizing s out with
  | done result =>
      cases runs
      exact ⟨out, ⟨rfl, rfl, rfl⟩, shows⟩
  | ask question next ih =>
      obtain ⟨reply, u, answers, later, spoken⟩ := Dialogue.run_ask_eq_some runs
      have onward := keeps.2 reply
      rw [spoken]
      cases question with
      | bit prob =>
          obtain ⟨changed, same⟩ := answer_bit_mem answers
          obtain ⟨last, tells, shown⟩ := ih reply onward
            (same ▸ shows.setHalf apart keeps.1 changed) later
          exact ⟨last, ⟨reply, _, rfl, tells⟩, shown⟩
      | directBit =>
          obtain ⟨last, tells, shown⟩ := ih reply onward
            (answer_directBit_mem answers ▸ shows) later
          exact ⟨last, ⟨reply, _, rfl, tells⟩, shown⟩
      | load index =>
          cases answers
          obtain ⟨last, tells, shown⟩ := ih _
            (s := s.emit (.load (call.outStream + index))) onward shows later
          exact ⟨last, ⟨_, shows.load keeps.1, tells⟩, shown⟩
      | store index byte =>
          cases answers
          obtain ⟨here, room⟩ := keeps.1
          have onward : (next ()).Keeps (contract call.properties.numProbs
              call.outSize) post (out ++ [byte]).length := by
            rw [List.length_append]
            exact onward
          obtain ⟨last, tells, shown⟩ :=
            ih () onward (shows.store here room byte) later
          exact ⟨last, ⟨here, tells⟩, shown⟩
      | dataError => cases reply

theorem decodeFrom_ok (valid : call.properties.Valid) (apart : call.TableApart)
    (ok : (decodeFrom call s).ret = lzmaResultOk) :
    ∃ last, Unpacks call.outSize.toNat .start
        (((mainLoop call.properties call.outSize (call.outSize.toNat + 1)
          .start).transcript (answer call) s).filterMap bit?) last ∧
      (decodeFrom call s).last.mem.Holds call.outStream last ∧
      (decodeFrom call s).outSizeProcessed = BitVec.ofNat 32 last.length := by
  have keeps := @mainLoop_start_keeps call.properties call.outSize valid
  unfold decodeFrom at ok ⊢
  split at ok
  next t same => cases ok
  next t same => cases ok
  next nowPos t same =>
    have empty : Shows call [] s.mem := ⟨Nat.zero_le _, trivial⟩
    obtain ⟨last, tells, shown⟩ := tells_of_run apart keeps empty same
    obtain ⟨unpacks, here⟩ := (tells_mainLoop_start valid).mp tells
    cases here
    unfold finish at ok ⊢
    split at ok
    next u fails => cases ok
    next u normalizes =>
      refine ⟨last, unpacks, ?_, rfl⟩
      rw [← rcNormalize_mem normalizes] at shown
      exact shown.holds

/-- What the decoder accepts, its bits say. -/
theorem decode_ok (valid : call.properties.Valid) (apart : call.TableApart)
    {mem : Memory} (ok : (decode call mem).ret = lzmaResultOk) :
    ∃ last, Unpacks call.outSize.toNat .start (toldBits call mem) last ∧
      (decode call mem).last.mem.Holds call.outStream last ∧
      (decode call mem).outSizeProcessed = BitVec.ofNat 32 last.length := by
  unfold decode at ok ⊢
  unfold toldBits
  simp only at ok ⊢
  generalize rcInit call 5 _ = inits at ok ⊢
  obtain ⟨result, s⟩ := inits
  cases result with
  | none => cases ok
  | some _ => exact decodeFrom_ok valid apart ok

end Run

/-- With a result of `LZMA_RESULT_OK`, the bits of the input are those of
packets, and the output is what the packets unpack to. It falls short of its
size only before an end marker. -/
theorem decode_sound (call : Call) (mem : Memory)
    (valid : call.properties.Valid) (apart : call.TableApart)
    (ok : (decode call mem).ret = lzmaResultOk) :
    ∃ packets ending, Packs call.outSize.toNat .start packets ∧
      Ending.Legal call.outSize.toNat (expand packets .start).out.length
        ending ∧
      toldBits call mem = streamBits packets ending ∧
      (decode call mem).last.mem.Holds call.outStream
        ((expand packets .start).out.take call.outSize.toNat) ∧
      (decode call mem).outSizeProcessed.toNat =
        min (expand packets .start).out.length call.outSize.toNat := by
  obtain ⟨_, ⟨packets, ending, packs, legal, spelt, rfl⟩, holds, size⟩ :=
    decode_ok valid apart ok
  refine ⟨packets, ending, packs, legal, spelt, holds, ?_⟩
  have top := call.outSize.isLt
  rw [size, List.length_take, BitVec.toNat_ofNat, Nat.min_comm,
    Nat.mod_eq_of_lt (by omega)]

theorem decode_sound_ababa :
    ∃ packets ending, Packs 10 .start packets ∧
      Ending.Legal 10 (expand packets .start).out.length ending ∧
      toldBits ababaCall ababaMemory = streamBits packets ending ∧
      (decode ababaCall ababaMemory).last.mem.Holds 0x9000
        ((expand packets .start).out.take 10) ∧
      (decode ababaCall ababaMemory).outSizeProcessed.toNat =
        min (expand packets .start).out.length 10 := by
  refine decode_sound ababaCall ababaMemory ababaCall_valid
    ababaCall_apart.table ?_
  obtain ⟨s, t, tail, table, starts, runs, ready, _⟩ :=
    @decode_ready ababaCall ababaMemory ababaPackets (some 2) ababaCall_valid
      ababaCall_apart (by decide) (by decide) _ ababaStream_encodes
      (by decide) (by decide)
  rw [starts]
  exact (decodeFrom_ready runs ready).1

end AuxLoader.LzmaDecode
