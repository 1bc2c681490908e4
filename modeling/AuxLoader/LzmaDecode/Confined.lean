import AuxLoader.LzmaDecode.Bounds

namespace AuxLoader.LzmaDecode

open Data

/-! Where the decoder goes, whatever its input is. -/

def Call.consumed (call : Call) (s : RangeDecoder) : Nat :=
  (s.buffer - call.inStream).toNat

/-- After `n` bytes of output: the input and the output have been gone through
in order and without a gap, no byte of the output has been loaded before it was
stored, and only the output and the probabilities have changed. -/
structure Confined (call : Call) (mem : Memory) (n : Nat) (s : RangeDecoder) :
    Prop where
  room : n ≤ call.outSize.toNat
  consumed : call.consumed s ≤ call.inSize.toNat
  inputs : s.log.filterMap Access.input? =
    (List.range (call.consumed s)).map fun i =>
      call.inStream + BitVec.ofNat 32 i
  stores : s.log.filterMap Access.store? =
    (List.range n).map fun i => call.outStream + BitVec.ofNat 32 i
  probs : ∀ address, .prob address ∈ s.log →
    ∃ prob, prob < call.properties.numProbs ∧ address = call.probAddress prob
  loads : ∀ (i : Nat) address, s.log[i]? = some (.load address) →
    .store address ∈ s.log.take i
  frame : ∀ a, ¬ Word.Within call.outStream n a →
    ¬ Word.Within call.probs (2 * call.properties.numProbs) a →
      s.mem a = mem a

section Primitives

variable {call : Call} {mem : Memory} {n : Nat} {s t : RangeDecoder}

/-- Of an access that is no load, the loads take no notice. -/
theorem loads_append {log : List Access} {access : Access}
    (loads : ∀ (i : Nat) address, log[i]? = some (.load address) →
      .store address ∈ log.take i)
    (last : ∀ address, access = .load address → .store address ∈ log)
    (i : Nat) (address : Word)
    (load : (log ++ [access])[i]? = some (.load address)) :
    .store address ∈ (log ++ [access]).take i := by
  by_cases before : i < log.length
  · rw [List.getElem?_append_left before] at load
    rw [List.take_append_of_le_length (Nat.le_of_lt before)]
    exact loads i address load
  · have here : i = log.length := by
      have bound := (List.getElem?_eq_some_iff.mp load).1
      rw [List.length_append, List.length_singleton] at bound
      omega
    rw [here, List.getElem?_append_right (Nat.le_refl _), Nat.sub_self] at load
    rw [here, List.take_left]
    exact last address (Option.some.inj load)

theorem Confined.recode (confined : Confined call mem n s)
    (range code : Word) : Confined call mem n { s with range, code } :=
  { confined with }

theorem Confined.rcReadByte (confined : Confined call mem n s)
    {byte : Option Byte} (reads : rcReadByte call s = (byte, t)) :
    Confined call mem n t := by
  unfold LzmaDecode.rcReadByte at reads
  split at reads
  next => cases reads; exact confined
  next more =>
    cases reads
    have small := confined.consumed
    have before : call.consumed s ≠ call.inSize.toNat := by
      intro all
      unfold Call.consumed at all
      exact more (by unfold Call.bufferLim; bv_omega)
    have onward : (s.buffer + 1 - call.inStream).toNat =
        call.consumed s + 1 := by
      have top := call.inSize.isLt
      unfold Call.consumed at small before ⊢
      bv_omega
    exact {
      room := confined.room
      consumed := by
        change (s.buffer + 1 - call.inStream).toNat ≤ _
        omega
      inputs := by
        change (s.log ++ [_]).filterMap _ =
          (List.range (s.buffer + 1 - call.inStream).toNat).map _
        rw [onward, List.range_succ, List.map_append, List.filterMap_append,
          confined.inputs]
        exact congrArg _ (congrArg (fun a => [a])
          (Word.add_ofNat_toNat_sub call.inStream s.buffer).symm)
      stores := by
        change (s.log ++ [_]).filterMap _ = _
        rw [List.filterMap_append, confined.stores]
        exact List.append_nil _
      probs := by
        intro address member
        rcases List.mem_append.mp member with old | new
        · exact confined.probs address old
        · simp at new
      loads := loads_append confined.loads nofun
      frame := confined.frame }

theorem Confined.rcNormalize (confined : Confined call mem n s)
    {result : Option Unit} (normalizes : rcNormalize call s = (result, t)) :
    Confined call mem n t := by
  unfold LzmaDecode.rcNormalize at normalizes
  split at normalizes
  next =>
    split at normalizes
    next u reads => cases normalizes; exact confined.rcReadByte reads
    next byte u reads =>
      cases normalizes
      exact (confined.rcReadByte reads).recode _ _
  next => cases normalizes; exact confined

theorem within_table {prob : Nat} (inside : prob < call.properties.numProbs)
    {a : Word} (near : Word.Within (call.probAddress prob) 2 a) :
    Word.Within call.probs (2 * call.properties.numProbs) a := by
  have split : a - call.probs =
      a - call.probAddress prob + BitVec.ofNat 32 (2 * prob) := by
    unfold Call.probAddress
    bv_omega
  have wraps : (a - call.probs).toNat ≤
      (a - call.probAddress prob).toNat + 2 * prob := by
    rw [split, BitVec.toNat_add, BitVec.toNat_ofNat]
    exact Nat.le_trans (Nat.mod_le _ _)
      (Nat.add_le_add_left (Nat.mod_le _ _) _)
  unfold Word.Within at near ⊢
  omega

/-- A probability is looked up and changed. -/
theorem Confined.prob (confined : Confined call mem n s) {prob : Nat}
    (inside : prob < call.properties.numProbs) (range code : Word)
    (value : BitVec 16) :
    Confined call mem n { s with
      range, code
      mem := s.mem.setHalf (call.probAddress prob) value
      log := s.log ++ [.prob (call.probAddress prob)] } where
  room := confined.room
  consumed := confined.consumed
  inputs := by
    rw [List.filterMap_append, confined.inputs]
    exact List.append_nil _
  stores := by
    rw [List.filterMap_append, confined.stores]
    exact List.append_nil _
  probs := by
    intro address member
    rcases List.mem_append.mp member with old | new
    · exact confined.probs address old
    · cases List.mem_singleton.mp new
      exact ⟨prob, inside, rfl⟩
  loads := loads_append confined.loads nofun
  frame := by
    intro a output table
    have apart : ¬ Word.Within (call.probAddress prob) 2 a :=
      fun near => table (within_table inside near)
    exact (Memory.setHalf_outside _ _ apart).trans
      (confined.frame a output table)

theorem Confined.rcDecide (confined : Confined call mem n s) {prob : Nat}
    (inside : prob < call.properties.numProbs) {result : Option Bool}
    (decides : rcDecide call prob s = (result, t)) :
    Confined call mem n t := by
  unfold LzmaDecode.rcDecide at decides
  simp only at decides
  split at decides
  next => cases decides; exact confined.prob inside _ _ _
  next => cases decides; exact confined.prob inside _ _ _

theorem Confined.rcDirect (confined : Confined call mem n s)
    {result : Option Bool} (decides : rcDirect s = (result, t)) :
    Confined call mem n t := by
  unfold LzmaDecode.rcDirect at decides
  simp only at decides
  split at decides
  next => cases decides; exact confined.recode _ _
  next => cases decides; exact confined.recode _ _

theorem Confined.normalized (confined : Confined call mem n s) {α : Type}
    {next : RangeDecoder → Option α × RangeDecoder} {result : Option α}
    (follows : ∀ u result t, Confined call mem n u → next u = (result, t) →
      Confined call mem n t)
    (runs : normalized call next s = (result, t)) :
    Confined call mem n t := by
  unfold LzmaDecode.normalized at runs
  split at runs
  next u fails => cases runs; exact confined.rcNormalize fails
  next u normalizes =>
    exact follows u result t (confined.rcNormalize normalizes) runs

theorem Confined.load (confined : Confined call mem n s) {index : Word}
    (before : index.toNat < n) :
    Confined call mem n (s.emit (.load (call.outStream + index))) where
  room := confined.room
  consumed := confined.consumed
  inputs := by
    change (s.log ++ [_]).filterMap _ = _
    rw [List.filterMap_append, confined.inputs]
    exact List.append_nil _
  stores := by
    change (s.log ++ [_]).filterMap _ = _
    rw [List.filterMap_append, confined.stores]
    exact List.append_nil _
  probs := by
    intro address member
    rcases List.mem_append.mp member with old | new
    · exact confined.probs address old
    · simp at new
  loads := by
    refine loads_append confined.loads fun address same => ?_
    cases same
    have stored : call.outStream + index ∈ s.log.filterMap Access.store? := by
      rw [confined.stores]
      refine List.mem_map.mpr ⟨index.toNat, List.mem_range.mpr before, ?_⟩
      rw [BitVec.ofNat_toNat, BitVec.setWidth_eq]
    obtain ⟨access, member, address⟩ := List.mem_filterMap.mp stored
    cases access <;> cases address
    exact member
  frame := confined.frame

theorem Confined.store (confined : Confined call mem n s) {index : Word}
    (byte : Byte) (here : index.toNat = n) (room : n < call.outSize.toNat) :
    Confined call mem (n + 1)
      ({ s with mem := s.mem.setByte (call.outStream + index) byte }.emit
        (.store (call.outStream + index))) where
  room := room
  consumed := confined.consumed
  inputs := by
    change (s.log ++ [_]).filterMap _ = _
    rw [List.filterMap_append, confined.inputs]
    exact List.append_nil _
  stores := by
    change (s.log ++ [_]).filterMap _ = _
    rw [List.range_succ, List.map_append, List.filterMap_append,
      confined.stores, ← here]
    simp [Access.store?]
  probs := by
    intro address member
    rcases List.mem_append.mp member with old | new
    · exact confined.probs address old
    · simp at new
  loads := loads_append confined.loads nofun
  frame := by
    intro a output table
    have other : a ≠ call.outStream + index := by
      rintro rfl
      exact output (by unfold Word.Within; bv_omega)
    have earlier : ¬ Word.Within call.outStream n a := by
      unfold Word.Within at output ⊢
      omega
    exact (Memory.setByte_other _ _ other).trans
      (confined.frame a earlier table)

theorem Confined.answer (confined : Confined call mem n s)
    {question : Question}
    (allowed : (contract call.properties.numProbs call.outSize).Allowed n
      question) {result : question.Answer}
    (answers : answer call question s = (some result, t)) :
    Confined call mem ((contract call.properties.numProbs call.outSize).next n
      question result) t := by
  cases question with
  | bit prob =>
      exact confined.normalized
        (fun _ _ _ ready decides => ready.rcDecide allowed decides) answers
  | directBit =>
      exact confined.normalized
        (fun _ _ _ ready decides => ready.rcDirect decides) answers
  | load index => cases answers; exact confined.load allowed
  | store index byte =>
      cases answers
      exact confined.store byte allowed.1 allowed.2
  | dataError => cases result

theorem Confined.answer_none (confined : Confined call mem n s)
    {question : Question}
    (allowed : (contract call.properties.numProbs call.outSize).Allowed n
      question)
    (ends : LzmaDecode.answer call question s = (none, t)) :
    Confined call mem n t := by
  cases question with
  | bit prob =>
      exact confined.normalized
        (fun _ _ _ ready decides => ready.rcDecide allowed decides) ends
  | directBit =>
      exact confined.normalized
        (fun _ _ _ ready decides => ready.rcDirect decides) ends
  | load index => cases ends
  | store index byte => cases ends
  | dataError => cases ends; exact confined

theorem Confined.initProbs (confined : Confined call mem n s) :
    Confined call mem n (initProbs call s) := by
  have fold (probs : List Nat)
      (all : ∀ prob ∈ probs, prob < call.properties.numProbs) :
      ∀ s, Confined call mem n s → Confined call mem n
        (probs.foldl (fun s prob =>
          let address := call.probAddress prob
          let half := (kBitModelTotal >>> 1).setWidth 16
          { s with mem := s.mem.setHalf address half }.emit (.prob address))
          s) := by
    induction probs with
    | nil => exact fun s confined => confined
    | cons prob rest ih =>
        intro s confined
        exact ih (fun other member => all other (List.mem_cons_of_mem _ member))
          _ (confined.prob (all prob List.mem_cons_self) s.range s.code _)
  exact fold _ (fun prob member => List.mem_range.mp member) s confined

theorem Confined.rcInit (confined : Confined call mem n s) {rounds : Nat}
    {result : Option Unit} (inits : rcInit call rounds s = (result, t)) :
    Confined call mem n t := by
  induction rounds generalizing s with
  | zero => cases inits; exact confined
  | succ rounds ih =>
      unfold LzmaDecode.rcInit at inits
      split at inits
      next u fails => cases inits; exact confined.rcReadByte fails
      next byte u reads =>
        exact ih ((confined.rcReadByte reads).recode _ _) inits

end Primitives

/-- How a call ends that has stored `n` bytes. -/
inductive Ended.Reports (call : Call) (n : Nat) (ended : Ended) : Prop
  | ok (ret : ended.ret = lzmaResultOk)
      (input : ended.inSizeProcessed = ended.last.buffer - call.inStream)
      (output : ended.outSizeProcessed = BitVec.ofNat 32 n)
  | error (ret : ended.ret = lzmaResultDataError)
      (input : ended.inSizeProcessed = 0) (output : ended.outSizeProcessed = 0)

section Decode

variable {call : Call} {mem : Memory} {n : Nat} {s : RangeDecoder}

theorem finish_confined (confined : Confined call mem n s) {nowPos : Word}
    (here : nowPos.toNat = n) :
    Confined call mem n (finish call nowPos s).last ∧
      (finish call nowPos s).Reports call n := by
  unfold finish
  split
  next t fails => exact ⟨confined.rcNormalize fails, .error rfl rfl rfl⟩
  next t normalizes =>
    refine ⟨confined.rcNormalize normalizes, .ok rfl rfl ?_⟩
    rw [← here, BitVec.ofNat_toNat, BitVec.setWidth_eq]

theorem decodeFrom_confined (valid : call.properties.Valid)
    (confined : Confined call mem 0 s) :
    ∃ n, Confined call mem n (decodeFrom call s).last ∧
      (decodeFrom call s).Reports call n := by
  have keeps := @mainLoop_start_keeps call.properties call.outSize valid
  have lost (n : Nat) (question : Question) (s t : RangeDecoder)
      (allowed : (contract call.properties.numProbs call.outSize).Allowed n
        question) (confined : Confined call mem n s)
      (ends : answer call question s = (none, t)) :
      ∃ n, Confined call mem n t :=
    ⟨n, confined.answer_none allowed ends⟩
  have runs := keeps.run
    (fun _ _ _ _ _ allowed confined => confined.answer allowed) lost confined
  unfold decodeFrom
  split
  next t same =>
    rw [same] at runs
    obtain ⟨_, _, impossible, _⟩ | ⟨_, n, confined⟩ := runs
    · cases impossible
    · exact ⟨n, confined, .error rfl rfl rfl⟩
  next t same =>
    rw [same] at runs
    obtain ⟨n, value, returns, ⟨nowPos, rfl, _⟩, _⟩ | ⟨impossible, _⟩ := runs
    · cases returns
    · cases impossible
  next nowPos t same =>
    rw [same] at runs
    obtain ⟨n, value, returns, ⟨_, rfl, here, _⟩, confined⟩ |
      ⟨impossible, _⟩ := runs
    · cases returns
      exact ⟨n, finish_confined confined here⟩
    · cases impossible

theorem decode_confined (call : Call) (mem : Memory)
    (valid : call.properties.Valid) :
    ∃ n, Confined call mem n (decode call mem).last ∧
      (decode call mem).Reports call n := by
  have start : Confined call mem 0
      ⟨0xFFFFFFFF, 0, call.inStream, mem, []⟩ :=
    { room := Nat.zero_le _
      consumed := by simp [Call.consumed]
      inputs := by simp [Call.consumed]
      stores := rfl
      probs := nofun
      loads := by simp
      frame := fun _ _ _ => rfl }
  unfold decode
  simp only
  split
  next t fails =>
    exact ⟨0, start.initProbs.rcInit fails, .error rfl rfl rfl⟩
  next t inits => exact decodeFrom_confined valid (start.initProbs.rcInit inits)

/-- Whatever the input is, the decoder goes through it and through the output
in order and no further, loads what it has stored only, and goes to the
probabilities of the table only. -/
theorem decode_accesses (call : Call) (mem : Memory)
    (valid : call.properties.Valid) :
    let ended := decode call mem
    let log := ended.last.log
    ∃ consumed stored, consumed ≤ call.inSize.toNat ∧
      stored ≤ call.outSize.toNat ∧
      log.filterMap Access.input? =
        (List.range consumed).map (call.inStream + BitVec.ofNat 32 ·) ∧
      log.filterMap Access.store? =
        (List.range stored).map (call.outStream + BitVec.ofNat 32 ·) ∧
      (∀ (i : Nat) address, log[i]? = some (.load address) →
        .store address ∈ log.take i) ∧
      (∀ address, .prob address ∈ log →
        ∃ prob, prob < call.properties.numProbs ∧
          address = call.probAddress prob) ∧
      (∀ a, ¬ Word.Within call.outStream stored a →
        ¬ Word.Within call.probs (2 * call.properties.numProbs) a →
          ended.last.mem a = mem a) ∧
      (ended.ret = lzmaResultOk ∧ ended.inSizeProcessed.toNat = consumed ∧
          ended.outSizeProcessed.toNat = stored ∨
        ended.ret = lzmaResultDataError ∧ ended.inSizeProcessed = 0 ∧
          ended.outSizeProcessed = 0) := by
  obtain ⟨n, confined, reports⟩ := decode_confined call mem valid
  refine ⟨call.consumed (decode call mem).last, n, confined.consumed,
    confined.room, confined.inputs, confined.stores, confined.loads,
    confined.probs, confined.frame, ?_⟩
  cases reports with
  | ok ret input output =>
      refine .inl ⟨ret, congrArg BitVec.toNat input, ?_⟩
      have room := confined.room
      have top := call.outSize.isLt
      rw [output, BitVec.toNat_ofNat]
      exact Nat.mod_eq_of_lt (by omega)
  | error ret input output => exact .inr ⟨ret, input, output⟩

end Decode

/-- `ababa`: two literals, a match and an end marker. -/
def ababaStream : List Byte :=
  [0, 48, 153, 197, 111, 3, 55, 98, 127, 254, 205, 64, 0]

def ababaCall : Call where
  properties := ⟨0, 0, 0⟩
  probs := 0x10000
  inStream := 0x8000
  inSize := 16
  outStream := 0x9000
  outSize := 10

def ababaMemory : Memory := .ofBytes 0x8000 ababaStream

theorem ababaCall_valid : ababaCall.properties.Valid :=
  ⟨by decide, by decide, by decide⟩

theorem decode_accesses_ababa :
    let ended := decode ababaCall ababaMemory
    let log := ended.last.log
    ∃ consumed stored, consumed ≤ 16 ∧ stored ≤ 10 ∧
      log.filterMap Access.input? =
        (List.range consumed).map (0x8000 + BitVec.ofNat 32 ·) ∧
      log.filterMap Access.store? =
        (List.range stored).map (0x9000 + BitVec.ofNat 32 ·) ∧
      (∀ (i : Nat) address, log[i]? = some (.load address) →
        .store address ∈ log.take i) ∧
      (∀ address, .prob address ∈ log →
        ∃ prob, prob < 2614 ∧ address = ababaCall.probAddress prob) ∧
      (∀ a, ¬ Word.Within 0x9000 stored a → ¬ Word.Within 0x10000 5228 a →
        ended.last.mem a = ababaMemory a) ∧
      (ended.ret = lzmaResultOk ∧ ended.inSizeProcessed.toNat = consumed ∧
          ended.outSizeProcessed.toNat = stored ∨
        ended.ret = lzmaResultDataError ∧ ended.inSizeProcessed = 0 ∧
          ended.outSizeProcessed = 0) :=
  decode_accesses ababaCall ababaMemory ababaCall_valid

end AuxLoader.LzmaDecode
