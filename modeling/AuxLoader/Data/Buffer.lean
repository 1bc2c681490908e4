import Mathlib.Logic.Function.Basic
import Mathlib.Data.List.Basic
import Mathlib.Tactic.Common

namespace AuxLoader.Data

universe u

/-! Arrays that are written without a bounds check. -/

/-- The cells around the start of an array, and the indices written so far. -/
structure Buffer (α : Type u) where
  get : Int → α
  written : List Int

namespace Buffer

variable {α : Type u}

def put (buf : Buffer α) (i : Int) (c : α) : Buffer α where
  get := Function.update buf.get i c
  written := buf.written ++ [i]

def fillCount (f : Int → α) : Nat → Int → Buffer α → Buffer α
  | 0, _, buf => buf
  | count + 1, i, buf => fillCount f count (i + 1) (buf.put i (f i))

/-- `for (i = start; i < stop; i++) buf[i] = f(i)` -/
def fill (buf : Buffer α) (f : Int → α) (start stop : Int) : Buffer α :=
  fillCount f (stop - start).toNat start buf

def reverseCount : Nat → Int → Int → Buffer α → Buffer α
  | 0, _, _, buf => buf
  | count + 1, first, last, buf =>
      if last > first then
        reverseCount count (first + 1) (last - 1)
          ((buf.put first (buf.get last)).put last (buf.get first))
      else buf

/-- Swaps the two ends and goes inwards until they meet. -/
def reverse (buf : Buffer α) (first last : Int) : Buffer α :=
  reverseCount (last - first).toNat first last buf

/-- The first cells of the array. -/
def slice (buf : Buffer α) (n : Nat) : List α :=
  (List.range n).map fun k : Nat => buf.get k

/-- The array as a pointer to cell `k` sees it. -/
def shift (buf : Buffer α) (k : Int) : Buffer α where
  get i := buf.get (k + i)
  written := buf.written.map (· - k)

@[simp] theorem get_shift (buf : Buffer α) (k i : Int) :
    (buf.shift k).get i = buf.get (k + i) := rfl

@[simp] theorem mem_written_shift (buf : Buffer α) (k i : Int) :
    i ∈ (buf.shift k).written ↔ k + i ∈ buf.written := by
  rw [shift, List.mem_map]
  constructor
  · rintro ⟨j, member, rfl⟩
    rwa [show k + (j - k) = j by omega]
  · intro member
    exact ⟨k + i, member, by omega⟩

theorem shift_put (buf : Buffer α) (k i : Int) (c : α) :
    (buf.put i c).shift k = (buf.shift k).put (i - k) c := by
  simp only [shift, put, List.map_append, List.map_cons, List.map_nil,
    Buffer.mk.injEq, and_true]
  funext j
  by_cases here : j = i - k
  · rw [here, Function.update_self, show k + (i - k) = i by omega,
      Function.update_self]
  · rw [Function.update_of_ne here, Function.update_of_ne (by omega)]

@[simp] theorem get_put_self (buf : Buffer α) (i : Int) (c : α) :
    (buf.put i c).get i = c := by simp [put]

theorem get_put_of_ne (buf : Buffer α) {i j : Int} (different : j ≠ i) (c : α) :
    (buf.put i c).get j = buf.get j := by
  simp [put, different]

@[simp] theorem mem_written_put (buf : Buffer α) (i j : Int) (c : α) :
    j ∈ (buf.put i c).written ↔ j ∈ buf.written ∨ j = i := by
  simp [put]

theorem get_fillCount (f : Int → α) (count : Nat) (i j : Int)
    (buf : Buffer α) :
    (fillCount f count i buf).get j =
      if i ≤ j ∧ j < i + count then f j else buf.get j := by
  induction count generalizing i buf with
  | zero =>
      rw [if_neg (by omega)]
      rfl
  | succ count ih =>
      rw [fillCount, ih]
      by_cases here : j = i
      · rw [if_neg (by omega), if_pos (by omega), here, get_put_self]
      · rw [get_put_of_ne buf here]
        exact if_congr (by omega) rfl rfl

theorem mem_written_fillCount (f : Int → α) (count : Nat) (i j : Int)
    (buf : Buffer α) :
    j ∈ (fillCount f count i buf).written ↔
      j ∈ buf.written ∨ i ≤ j ∧ j < i + count := by
  induction count generalizing i buf with
  | zero =>
      change j ∈ buf.written ↔ _
      exact ⟨.inl, fun wrote => wrote.resolve_right (by omega)⟩
  | succ count ih =>
      rw [fillCount, ih, mem_written_put, or_assoc]
      exact or_congr Iff.rfl (by omega)

theorem get_fill (buf : Buffer α) (f : Int → α) (start stop j : Int) :
    (buf.fill f start stop).get j =
      if start ≤ j ∧ j < stop then f j else buf.get j := by
  rw [fill, get_fillCount]
  exact if_congr (by omega) rfl rfl

theorem mem_written_fill (buf : Buffer α) (f : Int → α)
    (start stop j : Int) :
    j ∈ (buf.fill f start stop).written ↔
      j ∈ buf.written ∨ start ≤ j ∧ j < stop := by
  rw [fill, mem_written_fillCount]
  exact or_congr Iff.rfl (by omega)

theorem get_reverseCount {count : Nat} {first last : Int} (buf : Buffer α)
    (enough : last - first ≤ count) (j : Int) :
    (reverseCount count first last buf).get j =
      if first ≤ j ∧ j ≤ last then buf.get (first + last - j)
      else buf.get j := by
  induction count generalizing first last buf with
  | zero =>
      change buf.get j = _
      split
      · exact congrArg buf.get (by omega)
      · rfl
  | succ count ih =>
      rw [reverseCount]
      by_cases more : last > first
      · rw [if_pos more, ih _ (by omega)]
        by_cases inner : first + 1 ≤ j ∧ j ≤ last - 1
        · rw [if_pos inner, if_pos (by omega), get_put_of_ne _ (by omega),
            get_put_of_ne _ (by omega)]
          exact congrArg buf.get (by omega)
        · rw [if_neg inner]
          by_cases atLast : j = last
          · rw [atLast, get_put_self, if_pos (by omega)]
            exact congrArg buf.get (by omega)
          · rw [get_put_of_ne _ atLast]
            by_cases atFirst : j = first
            · rw [atFirst, get_put_self, if_pos (by omega)]
              exact congrArg buf.get (by omega)
            · rw [get_put_of_ne _ atFirst, if_neg (by omega)]
      · rw [if_neg more]
        split
        · exact congrArg buf.get (by omega)
        · rfl

theorem get_reverse (buf : Buffer α) (first last j : Int) :
    (buf.reverse first last).get j =
      if first ≤ j ∧ j ≤ last then buf.get (first + last - j)
      else buf.get j :=
  get_reverseCount buf (Int.self_le_toNat _) j

theorem mem_written_reverseCount (count : Nat) (first last : Int)
    (buf : Buffer α) {j : Int}
    (outside : ¬ (first ≤ j ∧ j ≤ last)) :
    j ∈ (reverseCount count first last buf).written ↔ j ∈ buf.written := by
  induction count generalizing first last buf with
  | zero => rfl
  | succ count ih =>
      rw [reverseCount]
      split
      · rw [ih _ _ _ (by omega), mem_written_put, mem_written_put]
        exact ⟨fun wrote => (wrote.resolve_right (by omega)).resolve_right
          (by omega), fun wrote => .inl (.inl wrote)⟩
      · rfl

theorem written_subset_reverseCount (count : Nat) (first last : Int)
    (buf : Buffer α) :
    buf.written ⊆ (reverseCount count first last buf).written := by
  induction count generalizing first last buf with
  | zero => exact List.Subset.refl _
  | succ count ih =>
      rw [reverseCount]
      split
      · intro j wrote
        apply ih
        simp [wrote]
      · exact List.Subset.refl _

/-! Slices. -/

@[simp] theorem length_slice (buf : Buffer α) (n : Nat) :
    (buf.slice n).length = n := by simp [slice]

theorem slice_congr {buf now : Buffer α} {n : Nat}
    (same : ∀ k : Nat, k < n → now.get k = buf.get k) :
    now.slice n = buf.slice n := by
  apply List.map_congr_left
  intro k member
  exact same k (List.mem_range.mp member)

theorem slice_add (buf : Buffer α) (m n : Nat) :
    buf.slice (m + n) =
      buf.slice m ++
        (List.range n).map fun k : Nat => buf.get (m + k : Nat) := by
  simp [slice, List.range_add, Function.comp_def]

theorem slice_put (buf : Buffer α) (n : Nat) (c : α) :
    (buf.put n c).slice (n + 1) = buf.slice n ++ [c] := by
  rw [slice_add, slice_congr fun k bound =>
    get_put_of_ne buf (by omega : (k : Int) ≠ n) c]
  simp

theorem slice_fill (buf : Buffer α) (f : Int → α) (m n : Nat) :
    (buf.fill f m (m + n : Nat)).slice (m + n) =
      buf.slice m ++ (List.range n).map fun k : Nat => f (m + k : Nat) := by
  rw [slice_add]
  refine congrArg₂ _ (slice_congr fun k bound => ?_)
    (List.map_congr_left fun k member => ?_)
  · rw [get_fill, if_neg (by omega)]
  · have bound := List.mem_range.mp member
    rw [get_fill, if_pos (by omega)]

theorem take_slice (buf : Buffer α) (m n : Nat) :
    (buf.slice (m + n)).take m = buf.slice m := by
  rw [slice_add, List.take_left' (length_slice buf m)]

theorem slice_reverse (buf : Buffer α) (m n : Nat) :
    (buf.reverse 0 ((m : Int) - 1)).slice (m + n) =
      ((buf.slice (m + n)).take m).reverse ++ (buf.slice (m + n)).drop m := by
  rw [take_slice, slice_add buf, List.drop_left' (length_slice buf m),
    slice_add]
  refine congrArg₂ _ ?_ (List.map_congr_left fun k _ => ?_)
  · apply List.ext_getElem
    · simp
    · intro k bound _
      rw [length_slice] at bound
      simp only [slice, List.getElem_reverse, List.getElem_map,
        List.getElem_range, List.length_map, List.length_range, get_reverse]
      rw [if_pos (by omega)]
      exact congrArg buf.get (by omega)
  · rw [get_reverse, if_neg (by omega)]

/-! What a series of writes from the start on comes to. -/

/-- The cells written since `buf` are the first `n`. -/
def Wrote (buf now : Buffer α) (n : Nat) : Prop :=
  ∀ i, i ∈ now.written ↔ i ∈ buf.written ∨ 0 ≤ i ∧ i < n

variable {buf now : Buffer α} {m n : Nat}

theorem Wrote.refl (buf : Buffer α) : Wrote buf buf 0 :=
  fun _ => ⟨.inl, fun wrote => wrote.resolve_right (by omega)⟩

theorem Wrote.put (wrote : Wrote buf now n) (no_gap : m ≤ n) (c : α) :
    Wrote buf (now.put m c) (max n (m + 1)) := by
  intro i
  rw [mem_written_put, wrote, or_assoc]
  exact or_congr Iff.rfl (by omega)

theorem Wrote.fill (wrote : Wrote buf now n) (f : Int → α) {start : Int}
    (from_zero : 0 ≤ start) (no_gap : start ≤ n) (stop : Int) :
    Wrote buf (now.fill f start stop) (max n stop.toNat) := by
  intro i
  rw [mem_written_fill, wrote, or_assoc]
  exact or_congr Iff.rfl (by omega)

theorem Wrote.reverse (wrote : Wrote buf now n) {last : Int}
    (bound : last < n) : Wrote buf (now.reverse 0 last) n := by
  intro i
  by_cases inside : 0 ≤ i ∧ i ≤ last
  · have here : i ∈ now.written := (wrote i).mpr (.inr (by omega))
    exact iff_of_true (written_subset_reverseCount _ _ _ _ here)
      (.inr (by omega))
  · exact (mem_written_reverseCount _ _ _ _ inside).trans (wrote i)

end Buffer

end AuxLoader.Data
