namespace AuxLoader.Data

universe u v w x y

/-! Programs that put questions to their surroundings. -/

/-- A program ends with a value, or asks a question and goes on with the
answer. -/
inductive Dialogue (Q : Type u) (A : Q → Type v) (α : Type w)
  | done (value : α)
  | ask (question : Q) (next : A question → Dialogue Q A α)

/-- Surroundings with a state of their own. They answer, or end the dialogue. -/
abbrev Handler (Q : Type u) (A : Q → Type v) (σ : Type x) :=
  (question : Q) → σ → Option (A question) × σ

namespace Dialogue

variable {Q : Type u} {A : Q → Type v} {α β : Type w} {σ : Type x}

def bind : Dialogue Q A α → (α → Dialogue Q A β) → Dialogue Q A β
  | .done value, follow => follow value
  | .ask question next, follow =>
      .ask question fun answer => (next answer).bind follow

instance : Monad (Dialogue Q A) where
  pure := .done
  bind := bind

def run (handle : Handler Q A σ) : Dialogue Q A α → σ → Option α × σ
  | .done value, s => (some value, s)
  | .ask question next, s =>
      match handle question s with
      | (some answer, t) => (next answer).run handle t
      | (none, t) => (none, t)

/-- The questions of a run, with their answers. -/
def transcript (handle : Handler Q A σ) :
    Dialogue Q A α → σ → List ((question : Q) × A question)
  | .done _, _ => []
  | .ask question next, s =>
      match handle question s with
      | (some answer, t) =>
          ⟨question, answer⟩ :: (next answer).transcript handle t
      | (none, _) => []

@[simp] theorem pure_eq (value : α) :
    (pure value : Dialogue Q A α) = .done value := rfl

@[simp] theorem done_bind (value : α) (follow : α → Dialogue Q A β) :
    (Dialogue.done value >>= follow) = follow value := rfl

@[simp] theorem ask_bind (question : Q) (next : A question → Dialogue Q A α)
    (follow : α → Dialogue Q A β) :
    (Dialogue.ask question next >>= follow) =
      .ask question fun answer => next answer >>= follow := rfl

@[simp] theorem run_done (handle : Handler Q A σ) (value : α) (s : σ) :
    (Dialogue.done value : Dialogue Q A α).run handle s = (some value, s) := rfl

theorem run_ask_some {handle : Handler Q A σ} {question : Q}
    {next : A question → Dialogue Q A α} {s t : σ} {answer : A question}
    (answers : handle question s = (some answer, t)) :
    (Dialogue.ask question next).run handle s = (next answer).run handle t := by
  rw [run, answers]

theorem run_ask_none {handle : Handler Q A σ} {question : Q}
    {next : A question → Dialogue Q A α} {s t : σ}
    (ends : handle question s = (none, t)) :
    (Dialogue.ask question next).run handle s = (none, t) := by
  rw [run, ends]

theorem bind_assoc {γ : Type w} (program : Dialogue Q A α)
    (follow : α → Dialogue Q A β) (last : β → Dialogue Q A γ) :
    program >>= follow >>= last =
      program >>= fun value => follow value >>= last := by
  induction program with
  | done value => rfl
  | ask question next ih =>
      exact congrArg (Dialogue.ask question) (funext ih)

theorem run_ask_eq_some {handle : Handler Q A σ} {question : Q}
    {next : A question → Dialogue Q A α} {s u : σ} {result : α}
    (returns : (Dialogue.ask question next).run handle s = (some result, u)) :
    ∃ answer t, handle question s = (some answer, t) ∧
      (next answer).run handle t = (some result, u) ∧
      (Dialogue.ask question next).transcript handle s =
        ⟨question, answer⟩ :: (next answer).transcript handle t := by
  rw [run] at returns
  split at returns
  next answer t first =>
    refine ⟨answer, t, first, returns, ?_⟩
    rw [transcript, first]
  next => cases returns

end Dialogue

/-! What a program keeps to, whatever it is answered. -/

/-- The questions that are allowed at a stage of the dialogue, and the stage
that an answer leads to. -/
structure Contract (Q : Type u) (A : Q → Type v) (γ : Type y) where
  Allowed : γ → Q → Prop
  next : γ → (question : Q) → A question → γ

namespace Dialogue

variable {Q : Type u} {A : Q → Type v} {α β : Type w} {γ : Type y}
  {contract : Contract Q A γ}

/-- From the stage on, the program asks what is allowed only, and ends with the
given relation between its last stage and its value. -/
def Keeps (contract : Contract Q A γ) (post : γ → α → Prop) :
    γ → Dialogue Q A α → Prop
  | g, .done value => post g value
  | g, .ask question next =>
      contract.Allowed g question ∧
        ∀ answer, (next answer).Keeps contract post
          (contract.next g question answer)

theorem Keeps.bind {program : Dialogue Q A α} {follow : α → Dialogue Q A β}
    {mid : γ → α → Prop} {post : γ → β → Prop} {g : γ}
    (first : program.Keeps contract mid g)
    (second : ∀ h value, mid h value → (follow value).Keeps contract post h) :
    (program >>= follow).Keeps contract post g := by
  induction program generalizing g with
  | done value => exact second g value first
  | ask question next ih =>
      exact ⟨first.1, fun answer => ih answer (first.2 answer)⟩

theorem Keeps.mono {program : Dialogue Q A α} {pre post : γ → α → Prop} {g : γ}
    (keeps : program.Keeps contract pre g)
    (weaker : ∀ h value, pre h value → post h value) :
    program.Keeps contract post g := by
  induction program generalizing g with
  | done value => exact weaker g value keeps
  | ask question next ih =>
      exact ⟨keeps.1, fun answer => ih answer (keeps.2 answer)⟩

variable {σ : Type x} {handle : Handler Q A σ}

/-- What the surroundings keep at every allowed question holds at the end of
every dialogue. -/
theorem Keeps.run {Holds : γ → σ → Prop} {Lost : σ → Prop}
    (answers : ∀ g question s answer t, contract.Allowed g question →
      Holds g s → handle question s = (some answer, t) →
        Holds (contract.next g question answer) t)
    (ends : ∀ g question s t, contract.Allowed g question → Holds g s →
      handle question s = (none, t) → Lost t)
    {program : Dialogue Q A α} {post : γ → α → Prop} {g : γ} {s : σ}
    (keeps : program.Keeps contract post g) (start : Holds g s) :
    (∃ h value, (program.run handle s).1 = some value ∧ post h value ∧
        Holds h (program.run handle s).2) ∨
      (program.run handle s).1 = none ∧ Lost (program.run handle s).2 := by
  induction program generalizing g s with
  | done value => exact .inl ⟨g, value, rfl, keeps, start⟩
  | ask question next ih =>
      cases reply : handle question s with
      | mk answer t =>
          cases answer with
          | none =>
              rw [run_ask_none reply]
              exact .inr ⟨rfl, ends g question s t keeps.1 start reply⟩
          | some answer =>
              rw [run_ask_some reply]
              exact ih answer (keeps.2 answer)
                (answers g question s answer t keeps.1 start reply)

end Dialogue

end AuxLoader.Data
