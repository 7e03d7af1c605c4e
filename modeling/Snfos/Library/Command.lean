import Mathlib.Tactic.TypeStar

set_option autoImplicit false

/- Commands on a state that may stop with a fault, and rules for what they ensure.
A rule names the faults it excuses; every other fault is shown not to occur. -/

/-- A command on states `σ` that returns an `α` or stops with a fault in `ε`. -/
abbrev Command (σ ε α : Type) := StateT σ (Except ε) α

namespace Command

variable {σ ε α β : Type}

/-- From `s`, `c` either returns with `Q`, or stops with an excused fault. -/
def Ensures (excused : ε → Prop) (s : σ) (c : Command σ ε α) (Q : α → σ → Prop) : Prop :=
  match c s with
  | .ok (a, s') => Q a s'
  | .error fault => excused fault

section Rules

variable {excused : ε → Prop} {s : σ} {Q : α → σ → Prop}

theorem ensures_pure (a : α) (holds : Q a s) : Ensures excused s (pure a) Q := holds

theorem ensures_throw (fault : ε) (allowed : excused fault) :
    Ensures excused s (throw fault : Command σ ε α) Q := allowed

theorem ensures_set {Q : PUnit → σ → Prop} (s' : σ) (holds : Q ⟨⟩ s') :
    Ensures excused s (set s' : Command σ ε PUnit) Q := holds

theorem ensures_modify {Q : PUnit → σ → Prop} (f : σ → σ) (holds : Q ⟨⟩ (f s)) :
    Ensures excused s (modify f : Command σ ε PUnit) Q := holds

theorem Ensures.mono {c : Command σ ε α} {weaker : α → σ → Prop}
    (ensures : Ensures excused s c Q) (implies : ∀ a s', Q a s' → weaker a s') :
    Ensures excused s c weaker := by
  unfold Ensures at ensures ⊢
  cases result : c s with
  | ok pair =>
      rw [result] at ensures
      exact implies _ _ ensures
  | error fault =>
      rw [result] at ensures
      exact ensures

/-- Two rules for one command: each excludes faults that the other excuses. -/
theorem Ensures.and {excused' : ε → Prop} {c : Command σ ε α} {R : α → σ → Prop}
    (left : Ensures excused s c Q) (right : Ensures excused' s c R) :
    Ensures (fun fault => excused fault ∧ excused' fault) s c fun a s' => Q a s' ∧ R a s' := by
  unfold Ensures at left right ⊢
  cases result : c s with
  | ok pair =>
      rw [result] at left right
      exact ⟨left, right⟩
  | error fault =>
      rw [result] at left right
      exact ⟨left, right⟩

theorem Ensures.excuse {excused' : ε → Prop} {c : Command σ ε α} (ensures : Ensures excused s c Q)
    (implies : ∀ fault, excused fault → excused' fault) : Ensures excused' s c Q := by
  unfold Ensures at ensures ⊢
  cases result : c s with
  | ok pair =>
      rw [result] at ensures
      exact ensures
  | error fault =>
      rw [result] at ensures
      exact implies fault ensures

/-- A command whose every fault is excluded returns. -/
theorem Ensures.returns {c : Command σ ε α} (ensures : Ensures excused s c Q)
    (none : ∀ fault, ¬ excused fault) : ∃ a s', c s = .ok (a, s') ∧ Q a s' := by
  unfold Ensures at ensures
  cases result : c s with
  | ok pair =>
      rw [result] at ensures
      exact ⟨pair.1, pair.2, rfl, ensures⟩
  | error fault =>
      rw [result] at ensures
      exact (none fault ensures).elim

/-- What a command ensures holds of a result it is known to have. -/
theorem Ensures.result {c : Command σ ε α} {a : α} {s' : σ} (ensures : Ensures excused s c Q)
    (result : c s = .ok (a, s')) : Q a s' := by
  unfold Ensures at ensures
  rw [result] at ensures
  exact ensures

/-- The result is the one that the command has. -/
theorem Ensures.known {c : Command σ ε α} (ensures : Ensures excused s c Q) :
    Ensures excused s c fun a s' => c s = .ok (a, s') ∧ Q a s' := by
  unfold Ensures at ensures ⊢
  cases result : c s with
  | ok pair =>
      rw [result] at ensures
      exact ⟨rfl, ensures⟩
  | error fault =>
      rw [result] at ensures
      exact ensures

theorem ensures_bind {c : Command σ ε α} {next : α → Command σ ε β} {final : β → σ → Prop}
    (first : Ensures excused s c Q)
    (second : ∀ a s', Q a s' → Ensures excused s' (next a) final) :
    Ensures excused s (c >>= next) final := by
  unfold Ensures at first ⊢
  have unfolded : (c >>= next) s = (c s >>= fun pair => next pair.1 pair.2) := rfl
  rw [unfolded]
  cases result : c s with
  | ok pair =>
      rw [result] at first
      exact second _ _ first
  | error fault =>
      rw [result] at first
      exact first

/-- A step that only reads the state. -/
theorem ensures_get_bind {next : σ → Command σ ε β} {final : β → σ → Prop}
    (rest : Ensures excused s (next s) final) : Ensures excused s (get >>= next) final :=
  ensures_bind (Q := fun a s' => a = s ∧ s' = s) ⟨rfl, rfl⟩ (by rintro _ _ ⟨rfl, rfl⟩; exact rest)

/-- A step that only writes the state. -/
theorem ensures_modify_bind {f : σ → σ} {next : PUnit → Command σ ε β} {final : β → σ → Prop}
    (rest : Ensures excused (f s) (next ⟨⟩) final) : Ensures excused s (modify f >>= next) final :=
  ensures_bind (Q := fun _ s' => s' = f s) rfl (by rintro _ _ rfl; exact rest)

theorem ensures_set_bind {s' : σ} {next : PUnit → Command σ ε β} {final : β → σ → Prop}
    (rest : Ensures excused s' (next ⟨⟩) final) : Ensures excused s (set s' >>= next) final :=
  ensures_bind (Q := fun _ s'' => s'' = s') rfl (by rintro _ _ rfl; exact rest)

theorem ensures_ite {c : Prop} [Decidable c] {yes no : Command σ ε α}
    (holds : c → Ensures excused s yes Q) (fails : ¬ c → Ensures excused s no Q) :
    Ensures excused s (if c then yes else no) Q := by
  split
  · next so => exact holds so
  · next not => exact fails not

end Rules

section Loops

variable {excused : ε → Prop}

/-- What one pass of a loop body has to leave: the invariant at the next index,
or the condition under which the loop is left early. -/
def Pass (invariant : Nat → σ → Prop) (left : σ → Prop) (i : Nat) :
    ForInStep PUnit → σ → Prop
  | .yield _, s => invariant (i + 1) s
  | .done _, s => left s

theorem ensures_forIn_range' (body : Nat → PUnit → Command σ ε (ForInStep PUnit))
    (invariant : Nat → σ → Prop) (left : σ → Prop) (count first : Nat) {s : σ}
    (start : invariant first s)
    (step : ∀ i s, first ≤ i → i < first + count → invariant i s →
      Ensures excused s (body i ⟨⟩) (Pass invariant left i)) :
    Ensures excused s (forIn (List.range' first count) PUnit.unit body)
      (fun _ s' => invariant (first + count) s' ∨ left s') := by
  induction count generalizing first s with
  | zero => exact Or.inl start
  | succ count ih =>
      rw [List.range'_succ, List.forIn_cons]
      apply ensures_bind (step first s (Nat.le_refl _) (by omega) start)
      intro outcome s' pass
      cases outcome with
      | done _ => exact Or.inr pass
      | yield _ =>
          have rest := ih (first + 1) pass fun i s lower upper => step i s (by omega) (by omega)
          rw [show first + (count + 1) = first + 1 + count by omega]
          exact rest

/-- The loop rule for `for i in List.range n`, with or without `break`. -/
theorem ensures_for_break {n : Nat} {body : Nat → PUnit → Command σ ε (ForInStep PUnit)}
    (invariant : Nat → σ → Prop) (left : σ → Prop) {s : σ} (start : invariant 0 s)
    (step : ∀ i s, i < n → invariant i s →
      Ensures excused s (body i ⟨⟩) (Pass invariant left i)) :
    Ensures excused s (forIn (List.range n) PUnit.unit body)
      (fun _ s' => invariant n s' ∨ left s') := by
  rw [List.range_eq_range']
  have loop := ensures_forIn_range' body invariant left n 0 start
    fun i s _ upper => step i s (by omega)
  rw [Nat.zero_add] at loop
  exact loop

theorem ensures_for {n : Nat} {body : Nat → PUnit → Command σ ε (ForInStep PUnit)}
    (invariant : Nat → σ → Prop) {s : σ} (start : invariant 0 s)
    (step : ∀ i s, i < n → invariant i s →
      Ensures excused s (body i ⟨⟩) (Pass invariant (fun _ => False) i)) :
    Ensures excused s (forIn (List.range n) PUnit.unit body) (fun _ s' => invariant n s') :=
  (ensures_for_break invariant (fun _ => False) start step).mono
    fun _ _ holds => holds.elim id False.elim

end Loops

section Faults

variable {faults : ε → Prop}

/-- From every state, `c` returns or stops with one of these faults. -/
def Raises (faults : ε → Prop) (c : Command σ ε α) : Prop :=
  ∀ s, Ensures faults s c fun _ _ => True

theorem raises_pure (a : α) : Raises faults (pure a : Command σ ε α) :=
  fun _ => ensures_pure a trivial

theorem raises_throw {fault : ε} (listed : faults fault) :
    Raises faults (throw fault : Command σ ε α) := fun _ => ensures_throw fault listed

theorem raises_get : Raises faults (get : Command σ ε σ) := fun _ => trivial

theorem raises_set (s' : σ) : Raises faults (set s' : Command σ ε PUnit) :=
  fun _ => ensures_set s' trivial

theorem raises_modify (f : σ → σ) : Raises faults (modify f : Command σ ε PUnit) :=
  fun _ => ensures_modify f trivial

theorem raises_bind {c : Command σ ε α} {next : α → Command σ ε β} (first : Raises faults c)
    (second : ∀ a, Raises faults (next a)) : Raises faults (c >>= next) :=
  fun s => ensures_bind (first s) fun a s' _ => second a s'

theorem raises_ite {c : Prop} [Decidable c] {yes no : Command σ ε α} (holds : c → Raises faults yes)
    (fails : ¬ c → Raises faults no) : Raises faults (if c then yes else no) :=
  fun s => ensures_ite (fun so => holds so s) fun not => fails not s

theorem raises_for {n : Nat} {body : Nat → PUnit → Command σ ε (ForInStep PUnit)}
    (step : ∀ i, i < n → Raises faults (body i ⟨⟩)) :
    Raises faults (forIn (List.range n) PUnit.unit body) := fun _ =>
  (ensures_for_break (fun _ _ => True) (fun _ => True) trivial fun i s inside _ =>
    (step i inside s).mono fun outcome _ _ => by cases outcome <;> trivial).mono
      fun _ _ _ => trivial

end Faults

section Invariants

variable {invariant : σ → Prop}

/-- Whenever `c` returns, what held before holds again. -/
def Keeps (invariant : σ → Prop) (c : Command σ ε α) : Prop :=
  ∀ s, invariant s → Ensures (fun _ => True) s c fun _ s' => invariant s'

theorem keeps_pure (a : α) : Keeps invariant (pure a : Command σ ε α) :=
  fun _ holds => ensures_pure a holds

theorem keeps_throw (fault : ε) : Keeps invariant (throw fault : Command σ ε α) :=
  fun _ _ => ensures_throw fault trivial

theorem keeps_modify {f : σ → σ} (step : ∀ s, invariant s → invariant (f s)) :
    Keeps invariant (modify f : Command σ ε PUnit) :=
  fun s holds => ensures_modify f (step s holds)

theorem keeps_set {s' : σ} (holds : invariant s') : Keeps invariant (set s' : Command σ ε PUnit) :=
  fun _ _ => ensures_set s' holds

theorem keeps_bind {c : Command σ ε α} {next : α → Command σ ε β} (first : Keeps invariant c)
    (second : ∀ a, Keeps invariant (next a)) : Keeps invariant (c >>= next) :=
  fun s holds => ensures_bind (first s holds) fun a s' holds' => second a s' holds'

/-- What follows a step that reads the state may use what holds of it. -/
theorem keeps_get_bind {next : σ → Command σ ε β}
    (rest : ∀ s, invariant s → Keeps invariant (next s)) : Keeps invariant (get >>= next) :=
  fun s holds => ensures_get_bind (rest s holds s holds)

theorem keeps_ite {c : Prop} [Decidable c] {yes no : Command σ ε α} (holds : Keeps invariant yes)
    (fails : Keeps invariant no) : Keeps invariant (if c then yes else no) :=
  fun s before => ensures_ite (fun _ => holds s before) fun _ => fails s before

theorem keeps_for {n : Nat} {body : Nat → PUnit → Command σ ε (ForInStep PUnit)}
    (step : ∀ i, Keeps invariant (body i ⟨⟩)) :
    Keeps invariant (forIn (List.range n) PUnit.unit body) := fun _ holds =>
  (ensures_for_break (fun _ => invariant) invariant holds fun i s _ before =>
    (step i s before).mono fun outcome _ after => by cases outcome <;> exact after).mono
      fun _ _ after => after.elim id id

end Invariants

end Command
