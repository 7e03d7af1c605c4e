import Snfos.SystemSteps

set_option autoImplicit false

/- The processes over whole runs: the ring they form, the turns they take, and the
state each of them returns to user mode with. -/
namespace Snfos.System

open Kernel

variable {M : Machine}

section RoundRobin

/-- The live processes as one circular list, in the order of `next` from `first`. -/
structure Ring (k : Kernel M) (order : List Nat) : Prop where
  once : order.Nodup
  live : ∀ p, p ∈ order ↔ (k.processOf p).isSome = true
  inside : ∀ p ∈ order, k.nextOf p ∈ order ∧ k.prevOf p ∈ order
  inverse : ∀ p ∈ order, k.prevOf (k.nextOf p) = p ∧ k.nextOf (k.prevOf p) = p
  visits : List.iterate k.nextOf k.first order.length = order
  ends : order ≠ [] → order.getLast? = some k.last ∧ k.nextOf k.last = k.first ∧
    k.prevOf k.first = k.last

theorem ring_of_linked {k : Kernel M} {order : List Nat} (linked : Linked k order) :
    Ring k order where
  once := linked.ring.nodup
  live := fun p => by
    rw [linked.live, Kernel.detail, Option.isSome_map]
  inside := fun p member => ⟨(linked.ring.next_mem member).1, (linked.ring.prev_mem member).1⟩
  inverse := fun p member => ⟨(linked.ring.next_mem member).2, (linked.ring.prev_mem member).2⟩
  visits := by
    cases order with
    | nil => rfl
    | cons head rest =>
      have chain := linked.ring.chain
      rw [Cycle.chain_coe_cons, ← List.cons_append] at chain
      have path := (List.isChain_append.mp chain).1
      rw [linked.first]
      exact LinkedRing.iterate_path path
  ends := fun nonempty => by
    obtain ⟨rest, last, rfl⟩ := (List.eq_nil_or_concat order).resolve_left nonempty
    have ring := linked.ring
    rw [List.concat_eq_append] at ring ⊢
    have named : k.last = last := by
      rw [linked.last, List.concat_eq_append, List.getLast?_concat]
      rfl
    obtain ⟨first, start⟩ : ∃ first, (rest ++ [last]).head? = some first := by
      cases rest with
      | nil => exact ⟨last, rfl⟩
      | cons head _ => exact ⟨head, rfl⟩
    have headed : k.first = first := by
      rw [linked.first, List.concat_eq_append, start]
      rfl
    have close := (LinkedRing.iff_path.mp ring).2.2 first start
    rw [named, headed]
    exact ⟨List.getLast?_concat, close⟩

variable {s s' : System M} {w : Estates} {order : List Nat}

/-- Once a process runs, one always does. -/
theorem Effect.running {k k' : Kernel M} {w' : Estates} {order order' : List Nat}
    {r : Option Resumed} {call : Call} (effect : Effect k k' order order' r call)
    (accounts : Accounts False False M.nothing k' w')
    (before : k.current ≠ 0 ∨ ∃ p, call = .runProcess p) : k'.current ≠ 0 := by
  have resumed : ∀ r, Resumes k' r → k'.current ≠ 0 := by
    rintro r ⟨o, b, known, _⟩
    exact accounts.detail_ne_zero known
  cases call with
  | addProcess memory arguments state =>
    obtain ⟨_, o, joins⟩ := effect
    rw [joins.current]
    exact before.resolve_right nofun
  | runProcess p =>
    obtain ⟨_, _, _, _, _, resumes⟩ := effect
    exact resumed r resumes
  | yield state =>
    obtain ⟨_, _, _, _, resumes⟩ := effect
    exact resumed r resumes
  | handleExit state =>
    obtain ⟨_, _, _, _, resumes⟩ := effect
    exact resumed r resumes
  | fork state child =>
    obtain ⟨_, o, memory, joins⟩ := effect
    rw [joins.current]
    exact before.resolve_right nofun
  | print state =>
    rw [effect.2.1.current]
    exact before.resolve_right nofun
  | getPid state =>
    rw [effect.2.1.current]
    exact before.resolve_right nofun
  | _ =>
    rw [effect.2.2.current]
    exact before.resolve_right nofun

end RoundRobin

section Context

/-- The state each process is due to return to user mode with next, as its own last call
and its creation say. -/
abbrev Dues := Nat → Option ProcessState

/-- The pid of a process. -/
def pidOf (k : Kernel M) (p : Nat) : Nat := (k.processOf p).elim 0 (·.2.pid)

/-- What a call that took the kernel from `k` to `k'` makes due: to the process that made
it, and to the one it created, which is the last of the ring. -/
def settle (k k' : Kernel M) (dues : Dues) : Call → Dues
  | .print s => Function.update dues k.current (some (withEax s 1))
  | .getPid s => Function.update dues k.current (some (withEax s (pidOf k k.current)))
  | .yield s => Function.update dues k.current (some s)
  | .fork s _ => Function.update (Function.update dues k'.last (some (withEax s 0))) k.current
      (some (withEax s (pidOf k' k'.last)))
  | .handleExit _ => Function.update dues k.current none
  | .addProcess memory arguments before => Function.update dues k'.last
      (some (withArguments arguments (linkedProcess memory k.pidInc before)).processState)
  | _ => dues

/-- The states of a run with what is due in them. -/
inductive History (M : Machine) : System M → Dues → Prop where
  | boot : History M (boot M) fun _ => none
  | call {s s' : System M} {dues : Dues} {call : Call} {r : Option Resumed}
      (earlier : History M s dues) (result : step call s = .ok (r, s')) :
      History M s' (settle s.kernel s'.kernel dues call)

/-- Every process but the running one has in its structure the state it is due. -/
def Saved (k : Kernel M) (dues : Dues) : Prop :=
  ∀ p o b, k.detail p = some (o, b) → p ≠ k.current → dues p = some b.processState

variable {s s' : System M} {w w' : Estates} {order order' : List Nat} {dues : Dues} {call : Call}
  {r : Option Resumed}

theorem pidOf_known {k : Kernel M} {p o : Nat} {b : Process} (known : k.detail p = some (o, b)) :
    pidOf k p = b.pid := by
  obtain ⟨pr, found, rfl, _⟩ := processOf_of_detail known
  unfold pidOf
  rw [found]
  rfl

/-- The process that joins is the last of the ring. -/
theorem Joins.last {k k' : Kernel M} {o : Nat} {b : Process} (joins : Joins k k' order order' o b)
    (linked : Linked k order) (linked' : Linked k' order') :
    k.detail k'.last = none ∧ k'.detail = Function.update k.detail k'.last (some (o, b)) := by
  obtain ⟨q, absent, rfl, detail⟩ := joins.ring
  have named := linked'.last_concat
  rw [named]
  refine ⟨?_, detail⟩
  rw [linked.live, Option.not_isSome_iff_eq_none] at absent
  exact absent

/-- One process and what it is due change together. -/
theorem due_update {k k' : Kernel M} {p q o : Nat} {b : Process} {change : Option (Nat × Process)}
    {due : Option ProcessState} (detail : k'.detail = Function.update k.detail q change)
    (fits : ∀ o b, change = some (o, b) → due = some b.processState)
    (known : k'.detail p = some (o, b))
    (others : p ≠ q → k.detail p = some (o, b) → dues p = some b.processState) :
    Function.update dues q due p = some b.processState := by
  rw [detail] at known
  by_cases here : p = q
  · subst here
    rw [Function.update_self] at known ⊢
    exact fits o b known
  · rw [Function.update_of_ne here] at known ⊢
    exact others here known

/-- A process that was not running resumes with what it is due. -/
theorem Saved.resumes {k' : Kernel M} (saved : ∀ p o b, k'.detail p = some (o, b) →
      dues p = some b.processState) (resumes : Resumes k' r) :
    Saved k' dues ∧ ∀ turn ∈ r, dues turn.process = some turn.state := by
  refine ⟨fun p o b known _ => saved p o b known, ?_⟩
  obtain ⟨o, b, known, rfl⟩ := resumes
  rintro _ ⟨⟩
  exact saved _ o b known

/-- The running process goes on with what its call makes due. -/
theorem Saved.answer {k k' : Kernel M} {dues' : Dues} {answer : ProcessState} (saved : Saved k dues)
    (current : k'.current = k.current)
    (others : ∀ p o b, k'.detail p = some (o, b) → p ≠ k.current →
      k.detail p = some (o, b) ∧ dues' p = dues p ∨ dues' p = some b.processState)
    (due : dues' k.current = some answer) :
    Saved k' dues' ∧ ∀ turn ∈ some (Resumed.mk k.current answer), dues' turn.process = some turn.state := by
  refine ⟨fun p o b known other => ?_, ?_⟩
  · rw [current] at other
    rcases others p o b known other with ⟨before, same⟩ | new
    · rw [same]
      exact saved p o b before other
    · exact new
  · rintro _ ⟨⟩
    exact due

/-- A call by one process leaves alone what the others are due. -/
theorem Effect.settles (effect : Effect s.kernel s'.kernel order order' r call)
    (sound : Sound s w order) (sound' : Sound s' w' order') (saved : Saved s.kernel dues) :
    Saved s'.kernel (settle s.kernel s'.kernel dues call) ∧
      ∀ turn ∈ r, settle s.kernel s'.kernel dues call turn.process = some turn.state := by
  have quiet : ∀ k' : Kernel M, Still s.kernel k' → Saved k' dues := by
    intro k' still p o b known other
    rw [still.detail] at known
    rw [still.current] at other
    exact saved p o b known other
  cases call with
  | print state =>
    obtain ⟨_, still, rfl⟩ := effect
    refine saved.answer still.current (fun p o b known other => ?_) (Function.update_self ..)
    rw [still.detail] at known
    exact Or.inl ⟨known, Function.update_of_ne other ..⟩
  | getPid state =>
    obtain ⟨_, still, o, b, known, rfl⟩ := effect
    refine saved.answer still.current (fun p o b known other => ?_) ?_
    · rw [still.detail] at known
      exact Or.inl ⟨known, Function.update_of_ne other ..⟩
    · rw [← pidOf_known known]
      exact Function.update_self ..
  | yield state =>
    obtain ⟨_, _, _, ⟨o, b, _, detail⟩, resumes⟩ := effect
    refine Saved.resumes (fun p o' b' known' => ?_) resumes
    refine due_update detail (fun o₁ b₁ same => ?_) known' fun here before => saved p o' b' before here
    cases same
    rfl
  | handleExit state =>
    obtain ⟨_, _, _, detail, resumes⟩ := effect
    refine Saved.resumes (fun p o' b' known' => ?_) resumes
    refine due_update detail (fun o₁ b₁ same => ?_) known' fun here before => saved p o' b' before here
    cases same
  | fork state before =>
    obtain ⟨rfl, o, memory, joins⟩ := effect
    obtain ⟨new, detail⟩ := joins.last sound.linked sound'.linked
    refine saved.answer joins.current (fun p o' b' known' other => ?_) ?_
    · simp only [settle]
      rw [Function.update_of_ne other]
      rw [detail] at known'
      by_cases child : p = s'.kernel.last
      · rw [child, Function.update_self] at known'
        cases known'
        rw [child, Function.update_self]
        exact Or.inr rfl
      · rw [Function.update_of_ne child] at known' ⊢
        exact Or.inl ⟨known', rfl⟩
    · simp only [settle]
      have born : s'.kernel.detail s'.kernel.last = some (o, childProcess state memory s.kernel.pidInc) := by
        rw [detail, Function.update_self]
      rw [Function.update_self, pidOf_known born]
      rfl
  | addProcess memory arguments before =>
    obtain ⟨rfl, o, joins⟩ := effect
    obtain ⟨new, detail⟩ := joins.last sound.linked sound'.linked
    refine ⟨fun p o' b' known' other => ?_, nofun⟩
    rw [joins.current] at other
    refine due_update detail (fun o₁ b₁ same => ?_) known' fun _ before => saved p o' b' before other
    cases same
    rfl
  | runProcess p =>
    obtain ⟨idle, _, detail, _, _, resumes⟩ := effect
    refine Saved.resumes (fun p o' b' known' => ?_) resumes
    rw [detail] at known'
    apply saved p o' b' known'
    rw [idle]
    exact sound.accounts.detail_ne_zero known'
  | loadModule i =>
    obtain ⟨rfl, _, still⟩ := effect
    exact ⟨quiet _ still, nofun⟩
  | malloc size =>
    obtain ⟨rfl, _, still⟩ := effect
    exact ⟨quiet _ still, nofun⟩
  | mallocPages pages =>
    obtain ⟨rfl, _, still⟩ := effect
    exact ⟨quiet _ still, nofun⟩
  | free pointer =>
    obtain ⟨rfl, _, still⟩ := effect
    exact ⟨quiet _ still, nofun⟩

theorem History.sound (history : History M s dues) :
    (∃ w order, Sound s w order) ∧ Saved s.kernel dues := by
  induction history with
  | boot => exact ⟨⟨_, _, boot_sound⟩, nofun⟩
  | call earlier result ih =>
    obtain ⟨⟨w, order, sound⟩, saved⟩ := ih
    obtain ⟨w', order', sound', effect⟩ := (sound.step _).result result
    exact ⟨⟨w', order', sound'⟩, (effect.settles sound sound' saved).1⟩

/-- Whatever a call makes due to others than its caller, they were not there before. -/
theorem Effect.leaves (effect : Effect s.kernel s'.kernel order order' r call)
    (sound : Sound s w order) (sound' : Sound s' w' order') {p : Nat} (other : p ≠ s.kernel.current)
    (live : (s.kernel.processOf p).isSome = true) :
    settle s.kernel s'.kernel dues call p = dues p := by
  have joined : ∀ o b, Joins s.kernel s'.kernel order order' o b → p ≠ s'.kernel.last := by
    rintro o b joins rfl
    have new := (joins.last sound.linked sound'.linked).1
    rw [Kernel.detail, Option.map_eq_none_iff] at new
    rw [new] at live
    cases live
  cases call with
  | fork state before =>
    obtain ⟨_, o, memory, joins⟩ := effect
    simp only [settle]
    rw [Function.update_of_ne other, Function.update_of_ne (joined _ _ joins)]
  | addProcess memory arguments before =>
    obtain ⟨_, o, joins⟩ := effect
    simp only [settle]
    rw [Function.update_of_ne (joined _ _ joins)]
  | print state => exact Function.update_of_ne other ..
  | getPid state => exact Function.update_of_ne other ..
  | yield state => exact Function.update_of_ne other ..
  | handleExit state => exact Function.update_of_ne other ..
  | _ => rfl

/-- What is due can be told of every state that calls lead to. -/
theorem History.onward (history : History M s dues) {calls : List Call}
    {returns : List (Option Resumed)} (ran : System.run calls s = .ok (returns, s')) :
    ∃ dues', History M s' dues' := by
  induction calls generalizing s dues returns with
  | nil =>
    cases ran
    exact ⟨dues, history⟩
  | cons call rest ih =>
    rw [run_cons] at ran
    cases stepped : System.step call s with
    | error fault =>
      rw [stepped] at ran
      cases ran
    | ok first =>
      rw [stepped] at ran
      simp only [Except.bind] at ran
      cases finished : System.run rest first.2 with
      | error fault =>
        rw [finished] at ran
        cases ran
      | ok others =>
        rw [finished] at ran
        cases ran
        exact ih (history.call stepped) finished

/-- In every run, whatever a process returns to user mode with is what it is due: the state
of its own last call with that call's answer in `eax`, or the one its parent forked with.
Calls of others do not change what a live process is due. -/
theorem run_returns (calls : List Call) :
    Command.Ensures (Stops M) (boot M) (run calls) fun _ s => (∃ dues, History M s dues) ∧
      ∀ dues, History M s dues → ∀ call, Command.Ensures (Stops M) s (step call) fun r s' =>
        (∀ turn ∈ r, settle s.kernel s'.kernel dues call turn.process = some turn.state) ∧
        ∀ p, p ≠ s.kernel.current → (s.kernel.processOf p).isSome = true →
          settle s.kernel s'.kernel dues call p = dues p := by
  have whole := boot_sound.run (M := M) calls
  unfold Command.Ensures at whole ⊢
  cases ran : run calls (boot M) with
  | error fault =>
    rw [ran] at whole
    exact whole
  | ok pair =>
    refine ⟨History.onward .boot ran, fun dues history call => ?_⟩
    obtain ⟨⟨w, order, sound⟩, saved⟩ := history.sound
    apply (sound.step call).mono
    rintro r s' ⟨w', order', sound', effect⟩
    exact ⟨(effect.settles sound sound' saved).2, fun p other live =>
      effect.leaves sound sound' other live⟩

end Context

end Snfos.System
