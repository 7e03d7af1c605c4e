import Snfos.Scheduling
import Snfos.HeapGrowth

set_option autoImplicit false

/- The pids of the live processes, which come from a counter of 32 bits: no run is long enough to
wrap it, since every process that was created has taken a page of the kernel's addresses. -/
namespace Snfos

/-- What the scheduler knows of its processes' identities: their pids from `first` to `last`,
the place of the one that runs, and `pid_inc`. -/
structure Roster where
  pids : List Nat
  current : Option Nat
  pidInc : Nat

namespace Roster

inductive Event where
  /-- `add_process` or `fork`. -/
  | create
  | run (i : Nat)
  | yield
  | exit

def boot : Roster := ⟨[], none, 1⟩

/-- An exit returns only while another process is live. -/
def step (r : Roster) : Event → Option Roster
  | .create => some { r with pids := r.pids ++ [r.pidInc], pidInc := u32 (r.pidInc + 1) }
  | .run i => if r.current = none ∧ i < r.pids.length then some { r with current := some i } else none
  | .yield => r.current.map fun i => { r with current := some ((i + 1) % r.pids.length) }
  | .exit => r.current.bind fun i =>
      if r.pids.length ≤ 1 then none
      else some { r with
        pids := r.pids.eraseIdx i
        current := some (if i + 1 = r.pids.length then 0 else i) }

def run (r : Roster) : List Event → Option Roster
  | [] => some r
  | event :: rest => (r.step event).bind (run · rest)

/-- The pids are distinct, and none is what `fork` tells the child or what stands for failure. -/
structure Distinct (r : Roster) : Prop where
  once : r.pids.Nodup
  child : 0 ∉ r.pids
  error : 0xFFFFFFFF ∉ r.pids

/-- The pids are some of those drawn from the counter so far. -/
structure Drawn (r : Roster) : Prop where
  once : r.pids.Nodup
  range : ∀ pid ∈ r.pids, 0 < pid ∧ pid < r.pidInc
  started : 0 < r.pidInc

theorem boot_drawn : boot.Drawn :=
  ⟨List.nodup_nil, fun _ member => absurd member List.not_mem_nil, Nat.one_pos⟩

section Steps

variable {r r' : Roster} {event : Event}

/-- Before the counter wraps, no pid is drawn twice and none is reserved. -/
theorem Drawn.distinct (drawn : r.Drawn) (bound : r.pidInc < 2 ^ 32) : r.Distinct := by
  refine ⟨drawn.once, fun zero => ?_, fun ones => ?_⟩
  · exact Nat.lt_irrefl 0 (drawn.range 0 zero).1
  · have inside := (drawn.range _ ones).2
    omega

theorem Drawn.create (drawn : r.Drawn) (bound : r.pidInc + 1 < 2 ^ 32)
    (stepped : r.step .create = some r') : r'.Drawn ∧ r'.pidInc = r.pidInc + 1 := by
  cases stepped
  have next : u32 (r.pidInc + 1) = r.pidInc + 1 := Nat.mod_eq_of_lt bound
  have started := drawn.started
  rw [next]
  refine ⟨⟨?_, fun pid member => ?_, Nat.succ_pos _⟩, rfl⟩
  · refine List.nodup_append.mpr ⟨drawn.once, List.nodup_singleton _, fun a member b same both => ?_⟩
    rw [both, List.mem_singleton.mp same] at member
    exact Nat.lt_irrefl _ (drawn.range _ member).2
  · rcases List.mem_append.mp member with old | new
    · exact ⟨(drawn.range pid old).1, Nat.lt_succ_of_lt (drawn.range pid old).2⟩
    · rw [List.mem_singleton.mp new]
      exact ⟨started, Nat.lt_succ_self _⟩

/-- Who runs and who is left matters to nobody's pid. -/
theorem Drawn.step (drawn : r.Drawn) (other : event ≠ .create) (stepped : r.step event = some r') :
    r'.Drawn ∧ r'.pidInc = r.pidInc := by
  cases event with
  | create => exact absurd rfl other
  | run i =>
    simp only [Roster.step] at stepped
    split at stepped
    · cases stepped
      exact ⟨⟨drawn.once, drawn.range, drawn.started⟩, rfl⟩
    · cases stepped
  | yield =>
    obtain ⟨i, _, rfl⟩ := Option.map_eq_some_iff.mp stepped
    exact ⟨⟨drawn.once, drawn.range, drawn.started⟩, rfl⟩
  | exit =>
    obtain ⟨i, _, left⟩ := Option.bind_eq_some_iff.mp stepped
    split at left
    · cases left
    · cases left
      have fewer : (r.pids.eraseIdx i).Sublist r.pids := List.eraseIdx_sublist ..
      exact ⟨⟨drawn.once.sublist fewer, fun pid member => drawn.range pid (fewer.subset member),
        drawn.started⟩, rfl⟩

end Steps

end Roster

namespace System

open Kernel

variable {M : Machine}

/-- The roster of a kernel whose ring is `order`. -/
structure Shows (k : Kernel M) (order : List Nat) (r : Roster) : Prop where
  pids : r.pids = order.map (pidOf k)
  pidInc : r.pidInc = k.pidInc
  current : match r.current with
    | none => k.current = 0
    | some i => order[i]? = some k.current

section Refinement

variable {s s' : System M} {w w' : Estates} {order order' : List Nat} {r : Roster} {call : Call}
  {returned : Option Resumed}

theorem Shows.running (shown : Shows s.kernel order r) (running : s.kernel.current ≠ 0) :
    ∃ i, r.current = some i ∧ order[i]? = some s.kernel.current := by
  have current := shown.current
  cases place : r.current with
  | none =>
    rw [place] at current
    exact absurd current running
  | some i =>
    rw [place] at current
    exact ⟨i, rfl, current⟩

/-- A process that joins is a creation. -/
theorem Joins.shown {o : Nat} {b : Process} (joins : Joins s.kernel s'.kernel order order' o b)
    (sound : Sound s w order) (shown : Shows s.kernel order r) :
    ∃ r', r.step .create = some r' ∧ Shows s'.kernel order' r' := by
  obtain ⟨q, absent, rfl, detail⟩ := joins.ring
  refine ⟨_, rfl, ?_, ?_, ?_⟩
  · have others : ∀ p ∈ order, pidOf s'.kernel p = pidOf s.kernel p := by
      intro p member
      have other : p ≠ q := fun same => absent (same ▸ member)
      obtain ⟨o', b', known⟩ := sound.linked.known member
      have known' : s'.kernel.detail p = some (o', b') := by
        rw [detail, Function.update_of_ne other]
        exact known
      rw [pidOf_known known, pidOf_known known']
    have born : s'.kernel.detail q = some (o, b) := by
      rw [detail, Function.update_self]
    rw [List.map_append, List.map_congr_left others, ← shown.pids, List.map_singleton,
      pidOf_known born, joins.pid, shown.pidInc]
  · dsimp only
    rw [shown.pidInc, joins.pidInc]
  · have current := shown.current
    dsimp only
    rw [joins.current]
    cases place : r.current with
    | none =>
      rw [place] at current
      exact current
    | some i =>
      rw [place] at current
      obtain ⟨inside, _⟩ := List.getElem?_eq_some_iff.mp current
      dsimp only
      rw [List.getElem?_append_left inside]
      exact current

/-- Only the saved states of the processes differ. -/
theorem Sound.same_pids (sound : Sound s w order)
    (same : ∀ p o b, s.kernel.detail p = some (o, b) → p ∈ order' →
      ∃ o' b', s'.kernel.detail p = some (o', b') ∧ b'.pid = b.pid)
    (fewer : ∀ p ∈ order', p ∈ order) : order'.map (pidOf s'.kernel) = order'.map (pidOf s.kernel) := by
  refine List.map_congr_left fun p member => ?_
  obtain ⟨o, b, known⟩ := sound.linked.known (fewer p member)
  obtain ⟨o', b', known', pid⟩ := same p o b known member
  rw [pidOf_known known, pidOf_known known', pid]

theorem Shows.still (shown : Shows s.kernel order r) {k' : Kernel M} (still : Still s.kernel k') :
    Shows k' order r := by
  have pids : pidOf k' = pidOf s.kernel := by
    funext p
    have same := congrFun still.detail p
    cases known : s.kernel.detail p with
    | none =>
      rw [known] at same
      rw [Kernel.detail, Option.map_eq_none_iff] at known same
      unfold pidOf
      rw [known, same]
    | some pair =>
      rw [known] at same
      rw [pidOf_known known, pidOf_known same]
  refine ⟨by rw [pids, shown.pids], by rw [still.pidInc, shown.pidInc], ?_⟩
  rw [still.current]
  exact shown.current

theorem Effect.yield_shown {state : ProcessState}
    (effect : Effect s.kernel s'.kernel order order' returned (.yield state))
    (sound : Sound s w order) (shown : Shows s.kernel order r) : ∃ r', r.step .yield = some r' ∧
      Shows s'.kernel order' r' := by
  obtain ⟨rfl, ⟨current, _⟩, pidInc, ⟨o, b, known, detail⟩, _⟩ := effect
  obtain ⟨i, place, here⟩ := shown.running (sound.accounts.detail_ne_zero known)
  refine ⟨{ r with current := some ((i + 1) % r.pids.length) }, ?_, ?_, ?_, ?_⟩
  · simp only [Roster.step, place, Option.map_some]
  · rw [shown.pids]
    refine (sound.same_pids (fun p o' b' known' _ => ?_) fun _ member => member).symm
    rw [detail]
    by_cases same : p = s.kernel.current
    · rw [same, known] at known'
      cases known'
      rw [same, Function.update_self]
      exact ⟨_, _, rfl, rfl⟩
    · rw [Function.update_of_ne same]
      exact ⟨o', b', known', rfl⟩
  · rw [pidInc]
    exact shown.pidInc
  · dsimp only
    rw [shown.pids, List.length_map, current]
    exact sound.linked.ring.next_getElem here

theorem Effect.exit_shown {state : ProcessState}
    (effect : Effect s.kernel s'.kernel order order' returned (.handleExit state))
    (sound : Sound s w order) (sound' : Sound s' w' order') (shown : Shows s.kernel order r) :
    ∃ r', r.step .exit = some r' ∧ Shows s'.kernel order' r' := by
  obtain ⟨⟨l₁, l₂, rfl, rfl⟩, current, pidInc, detail, o, b, known', _⟩ := effect
  have member : s.kernel.current ∈ l₁ ++ s.kernel.current :: l₂ := by simp
  obtain ⟨_, _, known⟩ := sound.linked.known member
  obtain ⟨i, place, here⟩ := shown.running (sound.accounts.detail_ne_zero known)
  have nodup := sound.linked.ring.nodup
  have at' : (l₁ ++ s.kernel.current :: l₂)[l₁.length]? = some s.kernel.current := by
    rw [List.getElem?_append_right (Nat.le_refl _), Nat.sub_self, List.getElem?_cons_zero]
  obtain ⟨inside, _⟩ := List.getElem?_eq_some_iff.mp here
  obtain rfl : i = l₁.length := (List.getElem?_inj inside nodup).mp (here.trans at'.symm)
  have left : s'.kernel.current ∈ l₁ ++ l₂ := (sound'.linked.live _).mpr (by rw [known']; rfl)
  have positive : 0 < (l₁ ++ l₂).length := List.length_pos_of_mem left
  have head := sound.linked.ring.next_head
  have length : r.pids.length = (l₁ ++ l₂).length + 1 := by
    rw [shown.pids, List.length_map, List.length_append, List.length_append, List.length_cons,
      Nat.add_assoc]
  refine ⟨{ r with
    pids := r.pids.eraseIdx l₁.length
    current := some (if l₁.length + 1 = r.pids.length then 0 else l₁.length) }, ?_, ?_, ?_, ?_⟩
  · simp only [Roster.step, place, Option.bind_some]
    rw [if_neg (by omega)]
  · have others : ∀ p ∈ l₁ ++ l₂, p ≠ s.kernel.current := by
      rintro _ member rfl
      rw [List.nodup_middle, List.nodup_cons] at nodup
      exact nodup.1 member
    have fewer : ∀ p ∈ l₁ ++ l₂, p ∈ l₁ ++ s.kernel.current :: l₂ := by
      intro p member
      rw [List.mem_append] at member
      rw [List.mem_append, List.mem_cons]
      tauto
    rw [sound.same_pids (fun p o' b' known member => ?_) fewer]
    · dsimp only
      rw [shown.pids, List.map_append, List.eraseIdx_append_of_length_le (by rw [List.length_map]),
        List.length_map, Nat.sub_self, List.map_cons, List.eraseIdx_cons_zero, List.map_append]
    · rw [detail, Function.update_of_ne (others p member)]
      exact ⟨o', b', known, rfl⟩
  · rw [pidInc]
    exact shown.pidInc
  · dsimp only
    rw [length, current]
    cases l₂ with
    | nil =>
      rw [List.append_nil] at positive ⊢
      rw [if_pos rfl]
      rw [List.nil_append, List.head?_append_of_ne_nil _ (List.ne_nil_of_length_pos positive)] at head
      rw [← List.head?_eq_getElem?, head]
    | cons y rest =>
      rw [List.cons_append, List.cons_append, List.head?_cons] at head
      rw [if_neg (by simp), List.getElem?_append_right (Nat.le_refl _), Nat.sub_self,
        List.getElem?_cons_zero, head]

/-- What a call is for the roster. -/
def event (order : List Nat) : Call → Option Roster.Event
  | .addProcess .. => some .create
  | .fork .. => some .create
  | .runProcess p => some (.run (order.idxOf p))
  | .yield _ => some .yield
  | .handleExit _ => some .exit
  | _ => none

/-- The roster takes every step with the kernel. -/
theorem Effect.shown (effect : Effect s.kernel s'.kernel order order' returned call)
    (sound : Sound s w order) (sound' : Sound s' w' order')
    (shown : Shows s.kernel order r) :
    ∃ r', (event order call).elim (some r) r.step = some r' ∧ Shows s'.kernel order' r' := by
  cases call with
  | addProcess memory arguments before =>
    obtain ⟨_, o, joins⟩ := effect
    exact joins.shown sound shown
  | fork state before =>
    obtain ⟨_, o, memory, joins⟩ := effect
    exact joins.shown sound shown
  | yield state => exact effect.yield_shown sound shown
  | handleExit state => exact effect.exit_shown sound sound' shown
  | runProcess p =>
    obtain ⟨idle, rfl, detail, current, pidInc, o, b, known, _⟩ := effect
    have member : p ∈ order' := by
      rw [← current]
      exact (sound'.linked.live _).mpr (by rw [known]; rfl)
    have place : r.current = none := by
      cases place : r.current with
      | none => rfl
      | some i =>
        have here := shown.current
        rw [place, idle] at here
        obtain ⟨_, _, known⟩ := sound.linked.known (List.mem_of_getElem? here)
        exact absurd rfl (sound.accounts.detail_ne_zero known)
    have inside : order'.idxOf p < r.pids.length := by
      rw [shown.pids, List.length_map]
      exact List.idxOf_lt_length_of_mem member
    refine ⟨{ r with current := some (order'.idxOf p) }, ?_, ?_, ?_, ?_⟩
    · simp only [event, Option.elim_some, Roster.step]
      rw [if_pos ⟨place, inside⟩]
    · rw [shown.pids]
      refine (sound.same_pids (fun q o' b' known' _ => ?_) fun _ inside => inside).symm
      rw [detail]
      exact ⟨o', b', known', rfl⟩
    · rw [pidInc]
      exact shown.pidInc
    · dsimp only
      rw [current, List.getElem?_idxOf member]
  | print state => exact ⟨r, rfl, by rw [effect.1]; exact shown.still effect.2.1⟩
  | getPid state => exact ⟨r, rfl, by rw [effect.1]; exact shown.still effect.2.1⟩
  | _ => exact ⟨r, rfl, by rw [effect.2.1]; exact shown.still effect.2.2⟩

end Refinement

section Identity

/-- The pids of live processes name one each, and are not reserved. -/
structure Identities (k : Kernel M) : Prop where
  names : ∀ p p', (k.processOf p).isSome = true → (k.processOf p').isSome = true →
    pidOf k p = pidOf k p' → p = p'
  reserved : ∀ p, (k.processOf p).isSome = true → pidOf k p ≠ 0 ∧ pidOf k p ≠ 0xFFFFFFFF

/-- What `fork` returns names one live process, and is neither the child's value nor the failure's. -/
def Tells (r : Option Resumed) (k' : Kernel M) : Call → Prop
  | .fork state _ => ∃ caller pid p, r = some ⟨caller, withEax state pid⟩ ∧ pid ≠ 0 ∧
      pid ≠ 0xFFFFFFFF ∧ (k'.processOf p).isSome = true ∧ pidOf k' p = pid ∧
      ∀ p', (k'.processOf p').isSome = true → pidOf k' p' = pid → p' = p
  | _ => True

/-- Identities hold in every state of a run, and every fork tells. -/
def Identified : List Call → System M → Prop
  | [], s => Identities s.kernel
  | call :: rest, s => Identities s.kernel ∧ ∀ r s', step call s = .ok (r, s') →
      Tells r s'.kernel call ∧ Identified rest s'

variable {s s' : System M} {w w' : Estates} {order order' : List Nat} {r : Roster} {call : Call}
  {returned : Option Resumed}

theorem Shows.distinct (shown : Shows s.kernel order r) (sound : Sound s w order) :
    r.Distinct ↔ Identities s.kernel := by
  have nodup := sound.linked.ring.nodup
  constructor
  · intro distinct
    have once := distinct.once
    have child := distinct.child
    have error := distinct.error
    rw [shown.pids] at once child error
    refine ⟨fun p p' live live' same => ?_, fun p live => ⟨fun zero => child ?_, fun ones => error ?_⟩⟩
    · exact List.inj_on_of_nodup_map once (sound.live_iff.mp live) (sound.live_iff.mp live') same
    · rw [← zero]
      exact List.mem_map_of_mem (sound.live_iff.mp live)
    · rw [← ones]
      exact List.mem_map_of_mem (sound.live_iff.mp live)
  · intro identities
    refine ⟨?_, fun zero => ?_, fun ones => ?_⟩
    · rw [shown.pids]
      exact nodup.map_on fun p member p' member' same =>
        identities.names p p' (sound.live_iff.mpr member) (sound.live_iff.mpr member') same
    · rw [shown.pids] at zero
      obtain ⟨p, member, same⟩ := List.mem_map.mp zero
      exact (identities.reserved p (sound.live_iff.mpr member)).1 same
    · rw [shown.pids] at ones
      obtain ⟨p, member, same⟩ := List.mem_map.mp ones
      exact (identities.reserved p (sound.live_iff.mpr member)).2 same

theorem Effect.tells (effect : Effect s.kernel s'.kernel order order' returned call)
    (sound : Sound s w order) (sound' : Sound s' w' order') (identities : Identities s'.kernel) :
    Tells returned s'.kernel call := by
  cases call with
  | fork state before =>
    obtain ⟨rfl, o, memory, joins⟩ := effect
    obtain ⟨_, detail⟩ := joins.last sound.linked sound'.linked
    have born : s'.kernel.detail s'.kernel.last = some (o, childProcess state memory s.kernel.pidInc) := by
      rw [detail, Function.update_self]
    have live : (s'.kernel.processOf s'.kernel.last).isSome = true :=
      sound'.live_iff.mpr ((sound'.linked.live _).mpr (by rw [born]; rfl))
    have pid : pidOf s'.kernel s'.kernel.last = s.kernel.pidInc := pidOf_known born
    obtain ⟨child, error⟩ := identities.reserved _ live
    rw [pid] at child error
    exact ⟨_, _, s'.kernel.last, rfl, child, error, live, pid, fun p live' same =>
      identities.names p _ live' live (same.trans pid.symm)⟩
  | _ => exact trivial

/-- The pids were drawn one after the other from 1 on, and for each the heap has grown by a page. -/
structure Ages (k : Kernel M) (order : List Nat) (r : Roster) : Prop where
  shown : Shows k order r
  drawn : r.Drawn
  paid : Grown (M.layout.heapStart + 4096 * (r.pidInc - 1)) k

theorem boot_ages : Ages (boot M).kernel [] Roster.boot where
  shown := ⟨rfl, rfl, rfl⟩
  drawn := Roster.boot_drawn
  paid := by
    refine ⟨M.allocator.boot_holds, ?_⟩
    show M.layout.heapStart + 0 ≤ (Kernel.boot M).mappedEnd
    rw [boot_mappedEnd, Nat.add_zero]

/-- There are not more pages than addresses. -/
theorem Ages.bound (ages : Ages s.kernel order r) (sound : Sound s w order) : r.pidInc ≤ 2 ^ 20 := by
  have past := ages.paid.past
  have upper := sound.accounts.paging.upper
  omega

theorem keeps_step_grown (a : Nat) (call : Call) :
    Command.Keeps (Kept fun _ => Grown (M := M) a) (step call) := by
  by_cases load : ∃ i, call = .loadModule i
  · obtain ⟨i, rfl⟩ := load
    show Command.Keeps (Kept fun _ => Grown (M := M) a) (loadModule i)
    unfold loadModule
    apply Command.keeps_get_bind
    intro s _
    cases M.modules[i]? with
    | none => exact Command.keeps_throw _
    | some module =>
      refine Command.keeps_ite (Command.keeps_throw _) ?_
      apply Command.keeps_bind (keeps_onKernel fun _ => ledger_grown.keeps_loadModule keeps_mapModule_grown _)
      intro memory
      exact Command.keeps_bind (Command.keeps_modify fun _ grown => grown) fun _ => Command.keeps_pure _
  · exact keeps_step (fun _ => ledger_grown) fun i same => load ⟨i, same⟩

/-- A creation takes a page. -/
theorem ensures_create_grown {a : Nat} (creates : event order call = some .create)
    (grown : Grown a s.kernel) :
    Command.Ensures (fun _ => True) s (step call) fun _ s' => Grown (a + 4096) s'.kernel := by
  cases call with
  | addProcess memory arguments before =>
    show Command.Ensures _ s (addProcess memory arguments before) _
    unfold addProcess
    apply Command.ensures_get_bind
    refine Command.ensures_ite (fun _ => ?_) fun _ => Command.ensures_throw _ trivial
    apply Command.ensures_bind (ensures_lifted (takesPage_addProcess memory arguments before a _ grown))
    rintro process s₁ ⟨_, grown₁⟩
    exact Command.ensures_modify_bind (Command.ensures_pure _ grown₁)
  | fork state before =>
    show Command.Ensures _ s (systemCall (Kernel.fork state before)) _
    unfold systemCall returning
    apply Command.ensures_get_bind
    refine Command.ensures_ite (fun _ => Command.ensures_throw _ trivial) fun _ => ?_
    apply Command.ensures_bind (ensures_lifted (takesPage_fork state before a _ grown))
    rintro state s₁ ⟨_, grown₁⟩
    exact Command.ensures_get_bind (Command.ensures_pure _ grown₁)
  | _ => cases creates

/-- A call draws at most one pid, and pays for it. -/
theorem Ages.step (ages : Ages s.kernel order r) (sound : Sound s w order) (call : Call) :
    Command.Ensures (Stops M) s (System.step call) fun returned s' => ∃ w' order' r',
      Sound s' w' order' ∧ Effect s.kernel s'.kernel order order' returned call ∧
        (event order call).elim (some r) r.step = some r' ∧ Ages s'.kernel order' r' := by
  have bound := ages.bound sound
  have started := ages.drawn.started
  by_cases creates : event order call = some .create
  · refine (((sound.step call).and (ensures_create_grown creates ages.paid)).excuse
      fun _ => And.left).mono ?_
    rintro returned s' ⟨⟨w', order', sound', effect⟩, paid⟩
    obtain ⟨r', stepped, shown⟩ := effect.shown sound sound' ages.shown
    have drawn := stepped
    rw [creates, Option.elim_some] at drawn
    obtain ⟨drawn, next⟩ := ages.drawn.create (by omega) drawn
    refine ⟨w', order', r', sound', effect, stepped, shown, drawn, ?_⟩
    rw [next, show 4096 * (r.pidInc + 1 - 1) = 4096 * (r.pidInc - 1) + 4096 by omega, ← Nat.add_assoc]
    exact paid
  · refine (((sound.step call).and (keeps_step_grown _ call s ages.paid)).excuse
      fun _ => And.left).mono ?_
    rintro returned s' ⟨⟨w', order', sound', effect⟩, paid⟩
    obtain ⟨r', stepped, shown⟩ := effect.shown sound sound' ages.shown
    refine ⟨w', order', r', sound', effect, stepped, ?_⟩
    cases which : event order call with
    | none =>
      rw [which] at stepped
      cases stepped
      exact ⟨shown, ages.drawn, paid⟩
    | some e =>
      rw [which, Option.elim_some] at stepped
      obtain ⟨drawn, same⟩ := ages.drawn.step (fun is => creates (which.trans (congrArg some is))) stepped
      exact ⟨shown, drawn, same ▸ paid⟩

theorem Ages.identities (ages : Ages s.kernel order r) (sound : Sound s w order) :
    Identities s.kernel := by
  have bound := ages.bound sound
  exact (ages.shown.distinct sound).mp (ages.drawn.distinct (by omega))

theorem Ages.identified (ages : Ages s.kernel order r) (sound : Sound s w order) (calls : List Call) :
    Identified calls s := by
  induction calls generalizing s w order r with
  | nil => exact ages.identities sound
  | cons call rest ih =>
    refine ⟨ages.identities sound, fun returned s' result => ?_⟩
    obtain ⟨w', order', r', sound', effect, _, ages'⟩ := (ages.step sound call).result result
    exact ⟨effect.tells sound sound' (ages'.identities sound'), ih ages' sound'⟩

/-- The roster runs along with the kernel. -/
theorem Ages.run (ages : Ages s.kernel order r) (sound : Sound s w order) (calls : List Call) :
    Command.Ensures (Stops M) s (System.run calls) fun _ s' => ∃ w' order' r' events,
      Sound s' w' order' ∧ r.run events = some r' ∧ Ages s'.kernel order' r' := by
  induction calls generalizing s w order r with
  | nil => exact Command.ensures_pure _ ⟨w, order, r, [], sound, rfl, ages⟩
  | cons call rest ih =>
    apply Command.ensures_bind (ages.step sound call)
    rintro first s₁ ⟨w₁, order₁, r₁, sound₁, _, stepped, ages₁⟩
    apply Command.ensures_bind (ih ages₁ sound₁)
    rintro others s₂ ⟨w₂, order₂, r₂, events, sound₂, ran, ages₂⟩
    refine Command.ensures_pure _ ⟨w₂, order₂, r₂, (event order call).toList ++ events, sound₂, ?_, ages₂⟩
    cases which : event order call with
    | none =>
      rw [which] at stepped
      cases stepped
      exact ran
    | some event =>
      rw [which, Option.elim_some] at stepped
      simp only [Option.toList_some, List.cons_append, List.nil_append, Roster.run, stepped,
        Option.bind_some]
      exact ran

/-- In every run from boot the pids are good identities throughout. Each call is a step of the
roster, and `pid_inc` stays far from where it would wrap. -/
theorem run_identities (calls : List Call) :
    Identified calls (boot M) ∧
    Command.Ensures (Stops M) (boot M) (run calls) fun _ s => ∃ order r events,
      Roster.boot.run events = some r ∧ Shows s.kernel order r ∧ r.Distinct ∧ r.pidInc ≤ 2 ^ 20 := by
  refine ⟨boot_ages.identified boot_sound calls, (boot_ages.run boot_sound calls).mono ?_⟩
  rintro _ s ⟨w, order, r, events, sound, ran, ages⟩
  have bound := ages.bound sound
  exact ⟨order, r, events, ran, ages.shown, ages.drawn.distinct (by omega), bound⟩

end Identity

end System

end Snfos
