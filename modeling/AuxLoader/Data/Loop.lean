import Mathlib.Data.Fintype.Pigeonhole
import Mathlib.Data.Set.Finite.Lattice
import Mathlib.Logic.Relation
import Mathlib.Order.Monotone.Basic
import AuxLoader.Data.Traced

namespace AuxLoader.Data

universe u v

/-! Unbounded loops with an explicit state, and when they end. -/

/-- One iteration: either a new state for the next iteration or an exit. -/
abbrev Loop (ι : Type v) (σ ρ : Type u) := σ → Traced ι (σ ⊕ ρ)

namespace Loop

variable {ι : Type v} {σ ρ : Type u}

def Step (body : Loop ι σ ρ) (s t : σ) : Prop :=
  (body s).val = .inl t

def Reaches (body : Loop ι σ ρ) : σ → σ → Prop :=
  Relation.ReflTransGen body.Step

def Exits (body : Loop ι σ ρ) (s : σ) (r : ρ) : Prop :=
  ∃ t, body.Reaches s t ∧ (body t).val = .inr r

def stateAt (body : Loop ι σ ρ) (s : σ) : Nat → Option σ
  | 0 => some s
  | n + 1 => (body.stateAt s n).bind fun t => (body t).val.getLeft?

/-- At most `fuel` iterations; `none` when the loop is still running. -/
def run (body : Loop ι σ ρ) : Nat → σ → Traced ι (Option ρ)
  | 0, _ => pure none
  | fuel + 1, s => do
      match ← body s with
      | .inl t => run body fuel t
      | .inr r => pure (some r)

@[simp] theorem stateAt_zero (body : Loop ι σ ρ) (s : σ) :
    body.stateAt s 0 = some s := rfl

theorem stateAt_succ (body : Loop ι σ ρ) (s : σ) (n : Nat) :
    body.stateAt s (n + 1) =
      (body.stateAt s n).bind fun t => (body t).val.getLeft? := rfl

theorem stateAt_succ_eq_some {body : Loop ι σ ρ} {s u : σ} {n : Nat} :
    body.stateAt s (n + 1) = some u ↔
      ∃ t, body.stateAt s n = some t ∧ body.Step t u := by
  simp only [stateAt_succ, Option.bind_eq_some_iff, Sum.getLeft?_eq_some_iff,
    Step]

theorem stateAt_add (body : Loop ι σ ρ) (s : σ) (m n : Nat) :
    body.stateAt s (m + n) =
      (body.stateAt s m).bind fun t => body.stateAt t n := by
  induction n with
  | zero => simp
  | succ n ih =>
      rw [← Nat.add_assoc, stateAt_succ, ih, Option.bind_assoc]
      rfl

theorem stateAt_add_of_eq {body : Loop ι σ ρ} {s t : σ} {m : Nat}
    (reached : body.stateAt s m = some t) (n : Nat) :
    body.stateAt s (m + n) = body.stateAt t n := by
  simp [stateAt_add, reached]

theorem stateAt_one_of_step {body : Loop ι σ ρ} {s t : σ}
    (step : body.Step s t) : body.stateAt s 1 = some t :=
  stateAt_succ_eq_some.mpr ⟨s, rfl, step⟩

theorem reaches_iff_stateAt {body : Loop ι σ ρ} {s t : σ} :
    body.Reaches s t ↔ ∃ n, body.stateAt s n = some t := by
  constructor
  · intro reached
    induction reached with
    | refl => exact ⟨0, rfl⟩
    | tail _ step ih =>
        obtain ⟨n, hn⟩ := ih
        exact ⟨n + 1, stateAt_succ_eq_some.mpr ⟨_, hn, step⟩⟩
  · rintro ⟨n, hn⟩
    induction n generalizing t with
    | zero => cases hn; exact .refl
    | succ n ih =>
        obtain ⟨u, hu, step⟩ := stateAt_succ_eq_some.mp hn
        exact (ih hu).tail step

theorem stateAt_eq_none_of_exit {body : Loop ι σ ρ} {s t : σ} {r : ρ}
    {n m : Nat} (last : body.stateAt s n = some t)
    (exit : (body t).val = .inr r) (later : n < m) :
    body.stateAt s m = none := by
  obtain ⟨k, rfl⟩ := Nat.exists_eq_add_of_lt later
  have next : body.stateAt s (n + 1) = none := by
    simp [stateAt_succ, last, exit]
  rw [show n + k + 1 = (n + 1) + k by omega, stateAt_add, next]
  rfl

theorem exits_iff_stateAt {body : Loop ι σ ρ} {s : σ} {r : ρ} :
    body.Exits s r ↔
      ∃ n t, body.stateAt s n = some t ∧ (body t).val = .inr r := by
  constructor
  · rintro ⟨t, reached, exit⟩
    obtain ⟨n, hn⟩ := reaches_iff_stateAt.mp reached
    exact ⟨n, t, hn, exit⟩
  · rintro ⟨n, t, hn, exit⟩
    exact ⟨t, reaches_iff_stateAt.mpr ⟨n, hn⟩, exit⟩

theorem exits_of_step {body : Loop ι σ ρ} {s t : σ} {r : ρ}
    (step : body.Step s t) (exits : body.Exits t r) : body.Exits s r := by
  obtain ⟨u, reached, exit⟩ := exits
  exact ⟨u, .head step reached, exit⟩

theorem exits_of_exit {body : Loop ι σ ρ} {s : σ} {r : ρ}
    (exit : (body s).val = .inr r) : body.Exits s r :=
  ⟨s, .refl, exit⟩

theorem forall_reaches_of_step {body : Loop ι σ ρ} {s t : σ} {P : σ → Prop}
    (step : body.Step s t) (here : P s)
    (onward : ∀ u, body.Reaches t u → P u) :
    ∀ u, body.Reaches s u → P u := by
  intro u reached
  rcases Relation.ReflTransGen.cases_head reached with rfl | ⟨v, first, rest⟩
  · exact here
  · cases Sum.inl.inj (step.symm.trans first)
    exact onward u rest

theorem forall_reaches_of_exit {body : Loop ι σ ρ} {s : σ} {r : ρ}
    {P : σ → Prop} (exit : (body s).val = .inr r) (here : P s) :
    ∀ u, body.Reaches s u → P u := by
  intro u reached
  rcases Relation.ReflTransGen.cases_head reached with rfl | ⟨v, first, _⟩
  · exact here
  · cases exit.symm.trans first

/-! Runs with a bounded number of iterations. -/

theorem val_run_succ (body : Loop ι σ ρ) (fuel : Nat) (s : σ) :
    (body.run (fuel + 1) s).val =
      match (body s).val with
      | .inl t => (body.run fuel t).val
      | .inr r => some r := by
  simp only [run, Traced.val_bind]
  cases (body s).val <;> rfl

theorem reads_run_succ (body : Loop ι σ ρ) (fuel : Nat) (s : σ) :
    (body.run (fuel + 1) s).reads =
      (body s).reads ++
        match (body s).val with
        | .inl t => (body.run fuel t).reads
        | .inr _ => [] := by
  simp only [run, Traced.reads_bind]
  cases (body s).val <;> rfl

theorem stateAt_succ_left {body : Loop ι σ ρ} {s t : σ}
    (step : body.Step s t) (n : Nat) :
    body.stateAt s (n + 1) = body.stateAt t n := by
  rw [Nat.add_comm, stateAt_add_of_eq (stateAt_one_of_step step)]

theorem exists_step_of_stateAt_succ {body : Loop ι σ ρ} {s t : σ} {n : Nat}
    (reached : body.stateAt s (n + 1) = some t) :
    ∃ u, body.Step s u ∧ body.stateAt u n = some t := by
  rw [Nat.add_comm, stateAt_add] at reached
  obtain ⟨u, hu, onward⟩ := Option.bind_eq_some_iff.mp reached
  obtain ⟨v, hv, step⟩ := stateAt_succ_eq_some.mp hu
  cases hv
  exact ⟨u, step, onward⟩

theorem run_val_eq_some_iff {body : Loop ι σ ρ} {fuel : Nat} {s : σ} {r : ρ} :
    (body.run fuel s).val = some r ↔
      ∃ n, n < fuel ∧
        ∃ t, body.stateAt s n = some t ∧ (body t).val = .inr r := by
  induction fuel generalizing s with
  | zero => simp [run]
  | succ fuel ih =>
      rw [val_run_succ]
      cases next : (body s).val with
      | inl u =>
          simp only [ih]
          constructor
          · rintro ⟨n, bound, t, ht, exit⟩
            exact ⟨n + 1, by omega, t,
              by rw [stateAt_succ_left next, ht], exit⟩
          · rintro ⟨n, bound, t, ht, exit⟩
            cases n with
            | zero => cases ht; simp [next] at exit
            | succ n =>
                rw [stateAt_succ_left next] at ht
                exact ⟨n, by omega, t, ht, exit⟩
      | inr q =>
          constructor
          · intro same
            cases same
            exact ⟨0, by omega, s, rfl, next⟩
          · rintro ⟨n, _, t, ht, exit⟩
            cases n with
            | zero => cases ht; simp_all
            | succ n =>
                have gone := stateAt_eq_none_of_exit
                  (show body.stateAt s 0 = some s from rfl) next n.succ_pos
                cases gone.symm.trans ht

/-- An invariant of the iterations holds where the loop exits. -/
theorem run_val_induct {body : Loop ι σ ρ} {P : σ → Prop} {Q : ρ → Prop}
    (step : ∀ s t, P s → body.Step s t → P t)
    (exit : ∀ s r, P s → (body s).val = .inr r → Q r) {fuel : Nat} {s : σ}
    {r : ρ} (start : P s) (returned : (body.run fuel s).val = some r) : Q r := by
  induction fuel generalizing s with
  | zero => cases returned
  | succ fuel ih =>
      rw [val_run_succ] at returned
      cases next : (body s).val with
      | inl t =>
          rw [next] at returned
          exact ih (step s t start next) returned
      | inr q =>
          rw [next] at returned
          cases returned
          exact exit s r start next

theorem mem_reads_run_iff {body : Loop ι σ ρ} {fuel : Nat} {s : σ} {a : ι} :
    a ∈ (body.run fuel s).reads ↔
      ∃ n, n < fuel ∧
        ∃ t, body.stateAt s n = some t ∧ a ∈ (body t).reads := by
  induction fuel generalizing s with
  | zero => simp [run]
  | succ fuel ih =>
      rw [reads_run_succ, List.mem_append]
      constructor
      · rintro (here | onward)
        · exact ⟨0, by omega, s, rfl, here⟩
        · cases next : (body s).val with
          | inl u =>
              rw [next] at onward
              obtain ⟨n, bound, t, ht, read⟩ := ih.mp onward
              exact ⟨n + 1, by omega, t,
                by rw [stateAt_succ_left next, ht], read⟩
          | inr q => simp [next] at onward
      · rintro ⟨n, bound, t, ht, read⟩
        cases n with
        | zero => cases ht; exact .inl read
        | succ n =>
            obtain ⟨u, step, onward⟩ := exists_step_of_stateAt_succ ht
            refine .inr ?_
            rw [show (body s).val = .inl u from step]
            exact ih.mpr ⟨n, by omega, t, onward, read⟩

/-- Cutting cycles out reaches every state before the states run out. -/
theorem exists_stateAt_lt_card [Fintype σ] {body : Loop ι σ ρ} {s t : σ}
    (reached : body.Reaches s t) :
    ∃ n, n < Fintype.card σ ∧ body.stateAt s n = some t := by
  obtain ⟨n, hn⟩ := reaches_iff_stateAt.mp reached
  induction n using Nat.strong_induction_on with
  | _ n ih =>
      by_cases bound : n < Fintype.card σ
      · exact ⟨n, bound, hn⟩
      have before : ∀ k : Fin (n + 1), ∃ u, body.stateAt s k = some u := by
        intro k
        obtain ⟨j, split⟩ := Nat.exists_eq_add_of_le (Nat.le_of_lt_succ k.isLt)
        rw [split, stateAt_add] at hn
        obtain ⟨u, hu, _⟩ := Option.bind_eq_some_iff.mp hn
        exact ⟨u, hu⟩
      choose visit visited using before
      -- A repetition at positions `i < j` leaves a shorter route to `t`.
      have shorter : ∀ i j : Fin (n + 1), i < j → visit i = visit j →
          ∃ m, m < Fintype.card σ ∧ body.stateAt s m = some t := by
        intro i j order same
        obtain ⟨k, split⟩ := Nat.exists_eq_add_of_le (Nat.le_of_lt_succ j.isLt)
        have onward : body.stateAt (visit i) k = some t := by
          rw [same, ← stateAt_add_of_eq (visited j), ← split, hn]
        have order' : i.val < j.val := order
        exact ih (i + k) (by omega)
          (by rw [stateAt_add_of_eq (visited i), onward])
      obtain ⟨i, j, different, same⟩ :=
        Fintype.exists_ne_map_eq_of_card_lt visit
          (by simp only [Fintype.card_fin]; omega)
      rcases lt_or_gt_of_ne different with order | order
      · exact shorter i j order same
      · exact shorter j i order same.symm

theorem run_val_eq_some_iff_exits [Fintype σ] {body : Loop ι σ ρ}
    {fuel : Nat} (enough : Fintype.card σ ≤ fuel) {s : σ} {r : ρ} :
    (body.run fuel s).val = some r ↔ body.Exits s r := by
  rw [run_val_eq_some_iff]
  constructor
  · rintro ⟨n, _, t, ht, exit⟩
    exact exits_iff_stateAt.mpr ⟨n, t, ht, exit⟩
  · rintro ⟨t, reached, exit⟩
    obtain ⟨n, bound, ht⟩ := exists_stateAt_lt_card reached
    exact ⟨n, by omega, t, ht, exit⟩

/-- Fuel for every state covers the reads of an endless loop too. -/
theorem mem_reads_run_iff_reaches [Fintype σ] {body : Loop ι σ ρ}
    {fuel : Nat} (enough : Fintype.card σ ≤ fuel) {s : σ} {a : ι} :
    a ∈ (body.run fuel s).reads ↔
      ∃ t, body.Reaches s t ∧ a ∈ (body t).reads := by
  rw [mem_reads_run_iff]
  constructor
  · rintro ⟨n, _, t, ht, read⟩
    exact ⟨t, reaches_iff_stateAt.mpr ⟨n, ht⟩, read⟩
  · rintro ⟨t, reached, read⟩
    obtain ⟨n, bound, ht⟩ := exists_stateAt_lt_card reached
    exact ⟨n, by omega, t, ht, read⟩

theorem readsIn_run_iff_reaches [Fintype σ] {body : Loop ι σ ρ}
    {fuel : Nat} (enough : Fintype.card σ ≤ fuel) {s : σ}
    {allowed : ι → Prop} :
    (body.run fuel s).ReadsIn allowed ↔
      ∀ t, body.Reaches s t → (body t).ReadsIn allowed := by
  constructor
  · intro inside t reached a read
    exact inside a ((mem_reads_run_iff_reaches enough).mpr ⟨t, reached, read⟩)
  · intro inside a read
    obtain ⟨t, reached, here⟩ := (mem_reads_run_iff_reaches enough).mp read
    exact inside t reached a here

/-! Loops with a guard on their state. -/

/-- `body` goes on with `next` while `guard` holds, and then exits with
`result`. -/
structure Guarded (body : Loop ι σ ρ) (guard : σ → Prop) (next : σ → σ)
    (result : σ → ρ) : Prop where
  goes : ∀ s, guard s → (body s).val = .inl (next s)
  stops : ∀ s, ¬ guard s → (body s).val = .inr (result s)

namespace Guarded

variable {body : Loop ι σ ρ} {guard : σ → Prop} {next : σ → σ}
  {result : σ → ρ}

theorem stateAt_eq_some_iff (shape : body.Guarded guard next result)
    {s t : σ} {n : Nat} :
    body.stateAt s n = some t ↔
      (∀ k, k < n → guard (next^[k] s)) ∧ t = next^[n] s := by
  induction n generalizing t with
  | zero => simp [eq_comm]
  | succ n ih =>
      rw [stateAt_succ_eq_some]
      simp only [ih, Function.iterate_succ_apply']
      constructor
      · rintro ⟨_, ⟨guarded, rfl⟩, step⟩
        by_cases last : guard (next^[n] s)
        · refine ⟨fun k bound => ?_,
            Sum.inl.inj (step.symm.trans (shape.goes _ last))⟩
          rcases Nat.lt_succ_iff_lt_or_eq.mp bound with earlier | rfl
          · exact guarded k earlier
          · exact last
        · cases step.symm.trans (shape.stops _ last)
      · rintro ⟨guarded, rfl⟩
        exact ⟨_, ⟨fun k bound => guarded k (by omega), rfl⟩,
          shape.goes _ (guarded n n.lt_succ_self)⟩

theorem run_val_eq_some_iff (shape : body.Guarded guard next result)
    {fuel : Nat} {s : σ} {r : ρ} :
    (body.run fuel s).val = some r ↔
      ∃ n, n < fuel ∧ (∀ k, k < n → guard (next^[k] s)) ∧
        ¬ guard (next^[n] s) ∧ r = result (next^[n] s) := by
  rw [Loop.run_val_eq_some_iff]
  simp only [shape.stateAt_eq_some_iff]
  constructor
  · rintro ⟨n, bound, _, ⟨guarded, rfl⟩, exit⟩
    by_cases last : guard (next^[n] s)
    · cases exit.symm.trans (shape.goes _ last)
    · exact ⟨n, bound, guarded, last,
        Sum.inr.inj (exit.symm.trans (shape.stops _ last))⟩
  · rintro ⟨n, bound, guarded, last, rfl⟩
    exact ⟨n, bound, _, ⟨guarded, rfl⟩, shape.stops _ last⟩

theorem mem_reads_run_iff (shape : body.Guarded guard next result)
    {fuel : Nat} {s : σ} {a : ι} :
    a ∈ (body.run fuel s).reads ↔
      ∃ n, n < fuel ∧ (∀ k, k < n → guard (next^[k] s)) ∧
        a ∈ (body (next^[n] s)).reads := by
  rw [Loop.mem_reads_run_iff]
  simp only [shape.stateAt_eq_some_iff]
  constructor
  · rintro ⟨n, bound, _, ⟨guarded, rfl⟩, read⟩
    exact ⟨n, bound, guarded, read⟩
  · rintro ⟨n, bound, guarded, read⟩
    exact ⟨n, bound, _, ⟨guarded, rfl⟩, read⟩

end Guarded

/-- `body` goes on with `next` while `guard` holds. -/
structure While (body : Loop ι σ σ) (guard : σ → Prop) (next : σ → σ) :
    Prop where
  goes : ∀ s, guard s → (body s).val = .inl (next s)
  stops : ∀ s, ¬ guard s → (body s).val = .inr s

/-- `body` does `next`, and goes on while `guard` holds of what it did. -/
structure DoWhile (body : Loop ι σ σ) (guard : σ → Prop) (next : σ → σ) :
    Prop where
  goes : ∀ s, guard (next s) → (body s).val = .inl (next s)
  stops : ∀ s, ¬ guard (next s) → (body s).val = .inr (next s)

section Shapes

variable {body : Loop ι σ σ} {guard : σ → Prop} {next : σ → σ}

theorem While.guarded (shape : body.While guard next) :
    body.Guarded guard next id :=
  ⟨shape.goes, shape.stops⟩

theorem DoWhile.guarded (shape : body.DoWhile guard next) :
    body.Guarded (fun s => guard (next s)) next next :=
  ⟨shape.goes, shape.stops⟩

theorem While.run_val_eq_some_iff (shape : body.While guard next) {fuel : Nat}
    {s t : σ} :
    (body.run fuel s).val = some t ↔
      ∃ n, n < fuel ∧ (∀ k, k < n → guard (next^[k] s)) ∧
        ¬ guard (next^[n] s) ∧ t = next^[n] s :=
  shape.guarded.run_val_eq_some_iff

theorem While.run_val_isSome_iff (shape : body.While guard next) {fuel : Nat}
    {s : σ} :
    (body.run fuel s).val.isSome ↔ ∃ n, n < fuel ∧ ¬ guard (next^[n] s) := by
  classical
  rw [Option.isSome_iff_exists]
  constructor
  · rintro ⟨t, returned⟩
    obtain ⟨n, bound, _, last, _⟩ := shape.run_val_eq_some_iff.mp returned
    exact ⟨n, bound, last⟩
  · rintro ⟨n, bound, last⟩
    have fails : ∃ k, ¬ guard (next^[k] s) := ⟨n, last⟩
    have first := Nat.find_min' fails last
    exact ⟨_, shape.run_val_eq_some_iff.mpr ⟨Nat.find fails, by omega,
      fun k before => not_not.mp (Nat.find_min fails before),
      Nat.find_spec fails, rfl⟩⟩

theorem DoWhile.run_val_eq_some_iff (shape : body.DoWhile guard next)
    {fuel : Nat} {s t : σ} :
    (body.run fuel s).val = some t ↔
      ∃ n, n < fuel ∧ (∀ k, k < n → guard (next^[k + 1] s)) ∧
        ¬ guard (next^[n + 1] s) ∧ t = next^[n + 1] s := by
  simp only [shape.guarded.run_val_eq_some_iff, ← Function.iterate_succ_apply']

theorem DoWhile.mem_reads_run_iff (shape : body.DoWhile guard next)
    {fuel : Nat} {s : σ} {a : ι} :
    a ∈ (body.run fuel s).reads ↔
      ∃ n, n < fuel ∧ (∀ k, k < n → guard (next^[k + 1] s)) ∧
        a ∈ (body (next^[n] s)).reads := by
  simp only [shape.guarded.mem_reads_run_iff, ← Function.iterate_succ_apply']

end Shapes

/-- The rounds before the guard fails, if up to the last round it tells whether
there is another. -/
theorem rounds_eq {Guard : Nat → Prop} {total rounds : Nat}
    (tells : ∀ j, j ≤ total → (Guard j ↔ j < total))
    (more : ∀ j, j < rounds → Guard j) (last : ¬ Guard rounds) :
    rounds = total := by
  rcases Nat.lt_trichotomy rounds total with early | exact | late
  · exact absurd ((tells rounds (Nat.le_of_lt early)).mpr early) last
  · exact exact
  · have beyond := (tells total (Nat.le_refl total)).mp (more total late)
    exact absurd beyond (Nat.lt_irrefl total)

end Loop

end AuxLoader.Data
