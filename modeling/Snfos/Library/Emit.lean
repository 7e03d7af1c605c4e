import Mathlib.Tactic.TypeStar

set_option autoImplicit false

/- Computations that hand pieces to a sink one by one. The sink may refuse a piece,
which ends the computation with an error. -/

/-- The sink is asked with all the pieces so far, the newest first. -/
def Emit (ε α β : Type) := (List α → Bool) → List α → Except ε β × List α

namespace Emit

variable {ε α β γ : Type}

def done (b : β) : Emit ε α β := fun _ log => (.ok b, log)

def fail (reason : ε) : Emit ε α β := fun _ log => (.error reason, log)

def andThen (first : Emit ε α β) (k : β → Emit ε α γ) : Emit ε α γ := fun sink log =>
  match first sink log with
  | (.ok b, log) => k b sink log
  | (.error reason, log) => (.error reason, log)

instance : Monad (Emit ε α) where
  pure := done
  bind := andThen

/-- One piece. The computation goes on if the sink takes it. -/
def piece (refused : ε) (p : α) : Emit ε α Unit := fun sink log =>
  if sink (p :: log) then (.ok (), p :: log) else (.error refused, p :: log)

def times (refused : ε) (p : α) : Nat → Emit ε α Unit
  | 0 => done ()
  | n + 1 => do
      piece refused p
      times refused p n

def when (condition : Prop) [Decidable condition] (e : Emit ε α Unit) : Emit ε α Unit :=
  if condition then e else done ()

/-- The pieces up to the first one refused. -/
def deliver (refused : ε) (sink : List α → Bool) :
    List α → Except ε β → List α → Except ε β × List α
  | [], result, log => (result, log)
  | p :: rest, result, log =>
      if sink (p :: log) then deliver refused sink rest result (p :: log)
      else (.error refused, p :: log)

/-- What `e` does for a sink that takes everything: it emits `pieces` and ends with
`result`. Another sink cuts it short. -/
def Emits (refused : ε) (e : Emit ε α β) (pieces : List α) (result : Except ε β) : Prop :=
  ∀ sink log, e sink log = deliver refused sink pieces result log

/-- Every piece of the log above `log` was taken. -/
def Taken (sink : List α → Bool) (log : List α) : List α → Prop
  | [] => True
  | p :: earlier => Taken sink log earlier ∧ sink (p :: (earlier ++ log)) = true

section Rules

variable {refused : ε} {e : Emit ε α β} {k : β → Emit ε α γ} {ps qs : List α}
  {sink : List α → Bool} {log : List α} {r : Except ε β} {s : Except ε γ} {b : β}

theorem emits_done (refused : ε) (b : β) : Emits refused (done b : Emit ε α β) [] (.ok b) :=
  fun _ _ => rfl

theorem emits_fail (refused reason : ε) :
    Emits refused (fail reason : Emit ε α β) [] (.error reason) := fun _ _ => rfl

theorem emits_piece (refused : ε) (p : α) : Emits refused (piece refused p) [p] (.ok ()) :=
  fun _ _ => rfl

theorem deliver_append (refused : ε) (sink : List α → Bool) (ps qs : List α) (r : Except ε β) (log : List α) :
    deliver refused sink (ps ++ qs) r log =
      match deliver refused sink ps (.ok ()) log with
      | (.ok (), log) => deliver refused sink qs r log
      | (.error reason, log) => (.error reason, log) := by
  induction ps generalizing log with
  | nil => rfl
  | cons p ps ih =>
    show (if sink (p :: log) then deliver refused sink (ps ++ qs) r (p :: log) else _) =
      match (if sink (p :: log) then deliver refused sink ps (.ok ()) (p :: log) else _) with
      | (.ok (), log) => deliver refused sink qs r log
      | (.error reason, log) => (.error reason, log)
    split
    · exact ih (p :: log)
    · rfl

theorem deliver_result (ps : List α) (r : Except ε β) (log : List α) :
    deliver refused sink ps r log =
      match deliver refused sink ps (.ok ()) log with
      | (.ok (), log) => (r, log)
      | (.error reason, log) => (.error reason, log) := by
  have appended := deliver_append refused sink ps [] r log
  rw [List.append_nil] at appended
  exact appended

theorem Emits.bind (first : Emits refused e ps (.ok b)) (second : Emits refused (k b) qs s) :
    Emits refused (e >>= k) (ps ++ qs) s := by
  intro sink log
  show andThen e k sink log = _
  unfold andThen
  rw [first, deliver_append, deliver_result ps (.ok b)]
  cases deliver refused sink ps (.ok ()) log with
  | mk outcome log =>
    cases outcome with
    | ok _ => exact second sink log
    | error reason => rfl

theorem Emits.bind_error {reason : ε} (first : Emits refused e ps (.error reason)) :
    Emits refused (e >>= k) ps (.error reason) := by
  intro sink log
  show andThen e k sink log = _
  unfold andThen
  rw [first, deliver_result ps (.error reason), deliver_result ps (.error reason)]
  cases deliver refused sink ps (.ok ()) log with
  | mk outcome log =>
    cases outcome with
    | ok _ => rfl
    | error reason => rfl

theorem emits_times (refused : ε) (p : α) (n : Nat) :
    Emits refused (times refused p n) (List.replicate n p) (.ok ()) := by
  induction n with
  | zero => exact emits_done refused ()
  | succ n ih => exact (emits_piece refused p).bind ih

theorem Emits.when {condition : Prop} [Decidable condition] {e : Emit ε α Unit}
    (emits : Emits refused e ps (.ok ())) :
    Emits refused (Emit.when condition e) (if condition then ps else []) (.ok ()) := by
  unfold Emit.when
  split
  · exact emits
  · exact emits_done refused ()

theorem Taken.concat {earlier : List α} {p : α} (taken : Taken sink (p :: log) earlier)
    (first : sink (p :: log) = true) : Taken sink log (earlier ++ [p]) := by
  induction earlier with
  | nil => exact ⟨trivial, first⟩
  | cons q earlier ih =>
    refine ⟨ih taken.1, ?_⟩
    have last := taken.2
    rw [List.append_cons] at last
    exact last

theorem Taken.at {later earlier : List α} {p : α} (taken : Taken sink [] (later ++ p :: earlier)) :
    sink (p :: earlier) = true := by
  induction later with
  | nil =>
    have last := taken.2
    rw [List.append_nil] at last
    exact last
  | cons _ later ih => exact ih taken.1

/-- Either every piece was taken and the computation came to its own end, or it ended
with the first piece refused. -/
theorem deliver_cases (refused : ε) (sink : List α → Bool) (ps : List α) (r : Except ε β) (log : List α) :
    (Taken sink log ps.reverse ∧ deliver refused sink ps r log = (r, ps.reverse ++ log)) ∨
      ∃ before p after, ps = before ++ p :: after ∧ Taken sink log before.reverse ∧
        sink (p :: (before.reverse ++ log)) = false ∧
        deliver refused sink ps r log = (.error refused, p :: (before.reverse ++ log)) := by
  induction ps generalizing log with
  | nil => exact Or.inl ⟨trivial, rfl⟩
  | cons p ps ih =>
    have unfolded : deliver refused sink (p :: ps) r log =
      if sink (p :: log) then deliver refused sink ps r (p :: log) else (.error refused, p :: log) := rfl
    rw [unfolded]
    cases answer : sink (p :: log) with
    | false => exact Or.inr ⟨[], p, ps, rfl, trivial, answer, if_neg (by decide)⟩
    | true =>
      rw [if_pos rfl]
      have restated : ∀ before : List α,
          before.reverse ++ (p :: log) = (p :: before).reverse ++ log := by
        intro before
        rw [List.reverse_cons, List.append_assoc]
        rfl
      rcases ih (p :: log) with ⟨taken, result⟩ | ⟨before, q, after, rfl, taken, last, result⟩
      · refine Or.inl ⟨?_, ?_⟩
        · rw [List.reverse_cons]
          exact taken.concat answer
        · rw [result, restated]
      · refine Or.inr ⟨p :: before, q, after, rfl, ?_, ?_, ?_⟩
        · rw [List.reverse_cons]
          exact taken.concat answer
        · rw [← restated]
          exact last
        · rw [result, restated]

end Rules

end Emit
