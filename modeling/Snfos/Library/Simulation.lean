import Snfos.Library.Command

set_option autoImplicit false

/- Runs of an abstract machine, given by its steps, and commands that follow it: what each
event of the commands gives, the machine allows. -/

/-- The machine goes from one state to another over these events, with these outcomes. -/
inductive Runs {α ι ω : Type} (step : α → ι → ω → α → Prop) : α → List ι → List ω → α → Prop where
  | nil (a : α) : Runs step a [] [] a
  | cons {a b c : α} {i : ι} {o : ω} {is : List ι} {os : List ω} (first : step a i o b)
      (rest : Runs step b is os c) : Runs step a (i :: is) (o :: os) c

namespace Runs

variable {α ι ω : Type} {step : α → ι → ω → α → Prop} {a b c : α} {is is' : List ι} {os os' : List ω}

theorem append (first : Runs step a is os b) (second : Runs step b is' os' c) :
    Runs step a (is ++ is') (os ++ os') c := by
  induction first with
  | nil _ => exact second
  | cons step _ ih => exact .cons step (ih second)

/-- What each step keeps, a run keeps. -/
theorem keeps {invariant : α → Prop} (run : Runs step a is os b)
    (kept : ∀ a i o b, step a i o b → invariant a → invariant b) (before : invariant a) :
    invariant b := by
  induction run with
  | nil _ => exact before
  | cons first _ ih => exact ih (kept _ _ _ _ first before)

end Runs

namespace Command

variable {σ ε α ι ω : Type}

/-- The commands for the events, one after the other, with what each gives. -/
def sequence (act : ι → Command σ ε ω) : List ι → Command σ ε (List ω)
  | [] => pure []
  | i :: rest => do
      let first ← act i
      let others ← sequence act rest
      pure (first :: others)

variable {excused : ε → Prop} {act : ι → Command σ ε ω} {step : α → ι → ω → α → Prop}
  {represents : σ → α → Prop}

/-- What the command for each event keeps, the commands for all of them keep. -/
theorem ensures_sequence {invariant : σ → Prop}
    (kept : ∀ s i, invariant s → Ensures excused s (act i) fun _ s' => invariant s') {s : σ}
    (before : invariant s) (is : List ι) :
    Ensures excused s (sequence act is) fun _ s' => invariant s' := by
  induction is generalizing s with
  | nil => exact ensures_pure _ before
  | cons i rest ih =>
    apply ensures_bind (kept s i before)
    intro o s₁ after
    apply ensures_bind (ih after)
    intro os s₂ later
    exact ensures_pure _ later

/-- From states that represent one another, each command gives what a step gives. -/
def Simulates (excused : ε → Prop) (act : ι → Command σ ε ω) (step : α → ι → ω → α → Prop)
    (represents : σ → α → Prop) : Prop :=
  ∀ s a i, represents s a → Ensures excused s (act i) fun o s' => ∃ b, step a i o b ∧ represents s' b

/-- What follows the machine step by step follows it over whole runs. -/
theorem Simulates.run (simulates : Simulates excused act step represents) {s : σ} {a : α}
    (related : represents s a) (is : List ι) :
    Ensures excused s (sequence act is) fun os s' => ∃ b, Runs step a is os b ∧ represents s' b := by
  induction is generalizing s a with
  | nil => exact ensures_pure _ ⟨a, .nil a, related⟩
  | cons i rest ih =>
    apply ensures_bind (simulates s a i related)
    rintro o s₁ ⟨b, first, related₁⟩
    apply ensures_bind (ih related₁)
    rintro os s₂ ⟨c, others, related₂⟩
    exact ensures_pure _ ⟨c, .cons first others, related₂⟩

end Command
