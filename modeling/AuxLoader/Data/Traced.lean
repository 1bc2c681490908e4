namespace AuxLoader.Data

universe u v

/-! Computations that record, in order, every address they touch. -/

/-- A value together with the addresses read while computing it. -/
structure Traced (ι : Type v) (α : Type u) where
  val : α
  reads : List ι

namespace Traced

variable {ι : Type v} {α β : Type u}

def touch (addresses : List ι) (value : α) : Traced ι α := ⟨value, addresses⟩

instance : Monad (Traced ι) where
  pure value := ⟨value, []⟩
  bind first next :=
    ⟨(next first.val).val, first.reads ++ (next first.val).reads⟩

@[simp] theorem val_touch (addresses : List ι) (value : α) :
    (touch addresses value).val = value := rfl

@[simp] theorem reads_touch (addresses : List ι) (value : α) :
    (touch addresses value).reads = addresses := rfl

@[simp] theorem val_pure (value : α) :
    (pure value : Traced ι α).val = value := rfl

@[simp] theorem reads_pure (value : α) :
    (pure value : Traced ι α).reads = [] := rfl

@[simp] theorem val_bind (first : Traced ι α) (next : α → Traced ι β) :
    (first >>= next).val = (next first.val).val := rfl

@[simp] theorem reads_bind (first : Traced ι α) (next : α → Traced ι β) :
    (first >>= next).reads = first.reads ++ (next first.val).reads := rfl

theorem bind_congr {first : Traced ι α} {next other : α → Traced ι β}
    (same : next first.val = other first.val) :
    first >>= next = first >>= other := by
  change Traced.mk _ _ = Traced.mk _ _
  rw [same]

def ReadsIn (allowed : ι → Prop) (computation : Traced ι α) : Prop :=
  ∀ a ∈ computation.reads, allowed a

section ReadsIn

variable {allowed : ι → Prop}

@[simp] theorem readsIn_pure (value : α) :
    (pure value : Traced ι α).ReadsIn allowed := by
  simp [ReadsIn]

@[simp] theorem readsIn_bind (first : Traced ι α) (next : α → Traced ι β) :
    (first >>= next).ReadsIn allowed ↔
      first.ReadsIn allowed ∧ (next first.val).ReadsIn allowed := by
  simp [ReadsIn, or_imp, forall_and]

theorem readsIn_ite {condition : Prop} [Decidable condition]
    {first second : Traced ι α} :
    (if condition then first else second).ReadsIn allowed ↔
      (condition → first.ReadsIn allowed) ∧
        (¬ condition → second.ReadsIn allowed) := by
  split <;> simp [*]

end ReadsIn

end Traced

end AuxLoader.Data
