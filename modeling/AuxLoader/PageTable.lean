import AuxLoader.Cpu

namespace AuxLoader

open Data

/-! What the page table maps. -/

/-! The parts of a first-level section descriptor. -/

def sectionBase (entry : Word) : Word := entry &&& 0xfff00000
def sectionAccess (entry : Word) : Word := entry &&& 0x000ffc00
def sectionAttributes (entry : Word) : Word := entry &&& 0x000003ff

/-- What `mmu_setup` gives to the sections that are not to be cached. -/
def uncachedSetup : Word := 0x12

def tableEntry (pageTable : Word) (mem : Memory) (i : Nat) : Word :=
  mem.word (pageTable + BitVec.ofNat 32 (4 * i))

/-- Section `i` is in the window that is asked for and does not hold the start
of the table. -/
def CachedSection (pageTable start size : Word) (i : Nat) : Prop :=
  start.toNat / 2 ^ 20 ≤ i ∧
    i < (start.toNat + size.toNat) % 2 ^ 32 / 2 ^ 20 ∧
    i ≠ pageTable.toNat / 2 ^ 20

instance (pageTable start size : Word) (i : Nat) :
    Decidable (CachedSection pageTable start size i) :=
  inferInstanceAs (Decidable (_ ∧ _))

structure MapsSection (entry : Word) (i : Nat) (attributes : Word) : Prop where
  base : sectionBase entry = BitVec.ofNat 32 i <<< 20
  access : sectionAccess entry = 3 <<< 10
  attributes : sectionAttributes entry = attributes

section Fields

theorem shiftLeft_and_base (word : Word) :
    word <<< 20 &&& (0xfff00000 : Word) = word <<< 20 := by
  ext i _
  interval_cases i <;> simp

theorem shiftLeft_and_rest (word : Word) :
    word <<< 20 &&& (0x000fffff : Word) = 0#32 := by
  ext i _
  interval_cases i <;> simp

theorem mapsSection_pageTableEntry (i : Nat) {attributes : Word}
    (low : attributes &&& (0x3ff : Word) = attributes) :
    MapsSection (pageTableEntry i attributes) i attributes := by
  have below (mask : Word) (within : (0x000fffff : Word) &&& mask = mask) :
      BitVec.ofNat 32 i <<< 20 &&& mask = 0#32 := by
    rw [← within, ← BitVec.and_assoc, shiftLeft_and_rest, BitVec.zero_and]
  have above (mask : Word) (apart : (0x3ff : Word) &&& mask = 0#32) :
      attributes &&& mask = 0#32 := by
    rw [← low, BitVec.and_assoc, apart, BitVec.and_zero]
  constructor
  · rw [sectionBase, pageTableEntry, BitVec.and_or_distrib_right,
      BitVec.and_or_distrib_right, shiftLeft_and_base, above _ (by decide),
      BitVec.or_zero]
    exact BitVec.or_zero
  · rw [sectionAccess, pageTableEntry, BitVec.and_or_distrib_right,
      BitVec.and_or_distrib_right, below _ (by decide), above _ (by decide),
      BitVec.zero_or, BitVec.or_zero]
    rfl
  · rw [sectionAttributes, pageTableEntry, BitVec.and_or_distrib_right,
      BitVec.and_or_distrib_right, below _ (by decide), low, BitVec.zero_or]
    exact BitVec.zero_or

end Fields

section Table

variable {pageTable : Word}

theorem tableEntry_setPageTable_same (mem : Memory) (i : Nat)
    (attributes : Word) :
    tableEntry pageTable (setPageTable pageTable mem i attributes) i =
      pageTableEntry i attributes :=
  Memory.word_setWord_same _ _ _

theorem tableEntry_setPageTable_other (mem : Memory) {i j : Nat}
    (attributes : Word) (first : i < 4096) (second : j < 4096)
    (different : j ≠ i) :
    tableEntry pageTable (setPageTable pageTable mem i attributes) j =
      tableEntry pageTable mem j := by
  apply Memory.word_setWord_apart <;> bv_omega

/-- Entries are written independently of each other, so neither the order nor
repetition counts. -/
theorem tableEntry_foldl (indices : List Nat) (attributes : Word)
    (mem : Memory) (entries : ∀ i ∈ indices, i < 4096) {j : Nat}
    (bound : j < 4096) :
    tableEntry pageTable (indices.foldl (fun mem i =>
        setPageTable pageTable mem i attributes) mem) j =
      if j ∈ indices then pageTableEntry j attributes
      else tableEntry pageTable mem j := by
  induction indices generalizing mem with
  | nil => simp
  | cons i rest ih =>
      rw [List.foldl_cons, ih _ fun k member =>
        entries k (List.mem_cons_of_mem i member)]
      by_cases later : j ∈ rest
      · rw [if_pos later, if_pos (List.mem_cons_of_mem i later)]
      · rw [if_neg later]
        by_cases same : j = i
        · rw [same, if_pos List.mem_cons_self, tableEntry_setPageTable_same]
        · rw [if_neg (by simp [same, later])]
          exact tableEntry_setPageTable_other mem attributes
            (entries i List.mem_cons_self) bound same

theorem dramBankMmuSetup_eq (start size : Word) (mem : Memory) :
    dramBankMmuSetup pageTable start size mem =
      ((List.range' (start >>> 20).toNat
        (((start + size) >>> 20).toNat - (start >>> 20).toNat)).filter
          fun i => i ≠ (pageTable >>> 20).toNat).foldl
        (fun mem i => setPageTable pageTable mem i cacheSetup) mem := by
  rw [List.foldl_filter]
  simp only [dramBankMmuSetup, decide_eq_true_eq, ite_not]

theorem tableEntry_fillPageTable (start size : Word) (mem : Memory) {i : Nat}
    (bound : i < 4096) :
    tableEntry pageTable (fillPageTable pageTable start size mem) i =
      pageTableEntry i
        (if CachedSection pageTable start size i then cacheSetup
          else uncachedSetup) := by
  have identity : tableEntry pageTable (identityMap pageTable mem) i =
      pageTableEntry i uncachedSetup := by
    rw [identityMap, tableEntry_foldl _ _ _ (by simp) bound,
      if_pos (List.mem_range.mpr bound)]
    rfl
  have window : i ∈ (List.range' (start >>> 20).toNat
        (((start + size) >>> 20).toNat - (start >>> 20).toNat)).filter
          (fun i => i ≠ (pageTable >>> 20).toNat) ↔
      CachedSection pageTable start size i := by
    simp only [List.mem_filter, List.mem_range'_1, decide_eq_true_eq,
      BitVec.toNat_ushiftRight, BitVec.toNat_add, Nat.shiftRight_eq_div_pow,
      CachedSection]
    omega
  rw [fillPageTable, dramBankMmuSetup_eq, tableEntry_foldl _ _ _ _ bound,
    identity]
  · simp only [window]
    split <;> rfl
  · intro j member
    have last := List.mem_range'_1.mp (List.mem_filter.mp member).1
    have top := ((start + size) >>> 20).isLt
    simp only [BitVec.toNat_ushiftRight, Nat.shiftRight_eq_div_pow] at last
    omega

end Table

/-- The table that `mmu_setup` leaves in memory: the identity on all 4 GB, with
the window cached. -/
structure IdentityTable (pageTable start size : Word) (mem now : Memory) :
    Prop where
  maps : ∀ i, i < 4096 → MapsSection (tableEntry pageTable now i) i
    (if CachedSection pageTable start size i then cacheSetup
      else uncachedSetup)
  cached_iff : ∀ i, i < 4096 →
    (sectionAttributes (tableEntry pageTable now i) = cacheSetup ↔
      CachedSection pageTable start size i)
  uncached_iff : ∀ i, i < 4096 →
    (sectionAttributes (tableEntry pageTable now i) = uncachedSetup ↔
      ¬ CachedSection pageTable start size i)
  own : sectionAttributes
    (tableEntry pageTable now (pageTable.toNat / 2 ^ 20)) = uncachedSetup
  holding : pageTable.toNat % 2 ^ 20 + 16384 ≤ 2 ^ 20 →
    ∀ a, Word.Within pageTable 16384 a →
      sectionAttributes (tableEntry pageTable now (a.toNat / 2 ^ 20)) =
        uncachedSetup
  outside : ∀ a, ¬ Word.Within pageTable 16384 a → now a = mem a

theorem fillPageTable_identityTable (pageTable start size : Word)
    (mem : Memory) :
    IdentityTable pageTable start size mem
      (fillPageTable pageTable start size mem) := by
  have maps (i : Nat) (bound : i < 4096) :
      MapsSection
        (tableEntry pageTable (fillPageTable pageTable start size mem) i) i
        (if CachedSection pageTable start size i then cacheSetup
          else uncachedSetup) := by
    rw [tableEntry_fillPageTable start size mem bound]
    apply mapsSection_pageTableEntry
    split <;> decide
  have own : sectionAttributes (tableEntry pageTable
      (fillPageTable pageTable start size mem)
      (pageTable.toNat / 2 ^ 20)) = uncachedSetup := by
    have bound : pageTable.toNat / 2 ^ 20 < 4096 := by
      have := pageTable.isLt
      omega
    rw [(maps _ bound).attributes, if_neg fun cached => cached.2.2 rfl]
  have different : uncachedSetup ≠ cacheSetup := by decide
  refine ⟨maps, ?_, ?_, own, ?_, ?_⟩
  · intro i bound
    rw [(maps i bound).attributes]
    split <;> simp [*]
  · intro i bound
    rw [(maps i bound).attributes]
    split <;> simp [*, different.symm]
  · intro fits a inTable
    rw [Word.within_iff (by omega)] at inTable
    rwa [show a.toNat / 2 ^ 20 = pageTable.toNat / 2 ^ 20 by omega]
  · intro a outside
    exact fillPageTable_outside pageTable start size mem outside

end AuxLoader
