import Snfos.EstateAccess
import Snfos.AddressSpace
import Snfos.Library.LinkedRing

set_option autoImplicit false

/- The ring of processes: the process structures among the kernel's blocks, and what
linking, unlinking and running a process do to them. -/
namespace Snfos

/-- A process but for its links. -/
def Process.bare (p : Process) : Process := { p with next := 0, prev := 0 }

namespace Estate

section Drop

variable {E E' : Estate} {role : Role}

theorem block_of_drop (same : E'.drop .process = E.drop .process) (other : role ≠ .process) :
    E'.block role = E.block role := by
  have blocks := congrFun (congrArg Estate.block same) role
  rwa [drop_block, drop_block, if_neg other, if_neg other] at blocks

theorem frame_of_drop (same : E'.drop .process = E.drop .process) : E'.frame = E.frame := by
  simpa using congrArg Estate.frame same

theorem bytes_of_drop (same : E'.drop .process = E.drop .process) : E'.bytes = E.bytes := by
  simpa using congrArg Estate.bytes same

theorem draft_of_drop (same : E'.drop .process = E.drop .process) : E'.draft = E.draft := by
  simpa using congrArg Estate.draft same

theorem word_of_drop (same : E'.drop .process = E.drop .process) : E'.word = E.word := by
  unfold word
  rw [bytes_of_drop same]

/-- A space is none of the process structure's. -/
theorem Ready.of_drop {p : Nat} {m : ProcessMemory} (ready : E.Ready p m)
    (same : E'.drop .process = E.drop .process) : E'.Ready p m where
  laid := ready.laid.congr (fun role which => ⟨block_of_drop same (by
      rintro rfl
      simp [Role.slot] at which), by rw [frame_of_drop same]⟩)
    (fun i _ => by rw [word_of_drop same]; exact ⟨rfl, rfl⟩) (by simp)
  final := by rw [draft_of_drop same]; exact ready.final
  temp := by rw [block_of_drop same (by simp), ready.temp]
  raw := by rw [block_of_drop same (by simp), ready.raw]

end Drop

end Estate

/-- The estates of `w'` are those of `w` but for the process structures. -/
def Beside (w w' : Estates) : Prop := ∀ o, (w' o).drop .process = (w o).drop .process

section Beside

variable {w w' w'' : Estates} {o : Nat} {role : Role}

theorem Beside.refl (w : Estates) : Beside w w := fun _ => rfl

theorem Beside.trans (first : Beside w w') (second : Beside w' w'') : Beside w w'' :=
  fun o => (second o).trans (first o)

theorem Beside.block (beside : Beside w w') (other : role ≠ .process) :
    (w' o).block role = (w o).block role :=
  Estate.block_of_drop (beside o) other

theorem Beside.frame (beside : Beside w w') : (w' o).frame = (w o).frame :=
  Estate.frame_of_drop (beside o)

theorem Beside.bytes (beside : Beside w w') : (w' o).bytes = (w o).bytes :=
  Estate.bytes_of_drop (beside o)

theorem Beside.draft (beside : Beside w w') : (w' o).draft = (w o).draft :=
  Estate.draft_of_drop (beside o)

theorem Beside.word (beside : Beside w w') : (w' o).word = (w o).word :=
  Estate.word_of_drop (beside o)

theorem beside_put {p : Nat} {body : Body} :
    Beside w (Function.update w o ((w o).put .process p body)) := by
  intro o'
  by_cases here : o' = o
  · rw [here, Function.update_self]
    unfold Estate.drop Estate.put
    simp only [Function.update_idem]
  · rw [Function.update_of_ne here]

theorem Estate.Ready.beside {p : Nat} {m : ProcessMemory} (ready : (w o).Ready p m)
    (beside : Beside w w') : (w' o).Ready p m :=
  ready.of_drop (beside o)

end Beside

namespace Kernel

variable {M : Machine}

/-- The process structure at `p`, with the owner of its block. -/
def processOf (k : Kernel M) (p : Nat) : Option (Nat × Process) :=
  match k.blocks p with
  | some ⟨.process pr, _, o⟩ => some (o, pr)
  | _ => none

def nextOf (k : Kernel M) (p : Nat) : Nat := (k.processOf p).elim 0 (·.2.next)

def prevOf (k : Kernel M) (p : Nat) : Nat := (k.processOf p).elim 0 (·.2.prev)

/-- The process at `p` and its owner, but for its links. -/
def detail (k : Kernel M) (p : Nat) : Option (Nat × Process) :=
  (k.processOf p).map fun found => (found.1, found.2.bare)

section Views

variable {covered enough : Prop} {spare spare' : M.Budget} {k k' : Kernel M} {w w' : Estates}
  {o p : Nat} {pr : Process}

theorem Accounts.processOf_iff (accounts : Accounts covered enough spare k w) :
    k.processOf p = some (o, pr) ↔ o ≠ 0 ∧ (w o).block .process = some (p, .process pr) := by
  constructor
  · intro found
    unfold processOf at found
    split at found
    · next pr' role o' live =>
        cases found
        obtain ⟨_, fits, _, unowned, _⟩ := accounts.blocks _ _ live
        have isProcess : role = .process := by
          cases role <;> first | rfl | exact fits.elim
        subst isProcess
        have owner : o ≠ 0 := fun zero => by cases unowned zero
        exact ⟨owner, (accounts.owned o owner _ _ _).mpr live⟩
    · cases found
  · rintro ⟨owner, held⟩
    unfold processOf
    rw [accounts.live owner held]

/-- The structures stay where every owner's is unchanged. -/
theorem Accounts.processOf_same (accounts : Accounts covered enough spare k w)
    (accounts' : Accounts covered enough spare' k' w')
    (same : ∀ o, o ≠ 0 → (w' o).block .process = (w o).block .process) :
    k'.processOf = k.processOf := by
  funext p
  ext ⟨o, pr⟩
  rw [accounts'.processOf_iff, accounts.processOf_iff]
  exact and_congr_right fun owner => by rw [same o owner]

/-- One owner's structure changes, comes or goes. -/
theorem Accounts.processOf_update {E : Estate} {x : Option Process}
    (accounts : Accounts covered enough spare k w)
    (accounts' : Accounts covered enough spare' k' (Function.update w o E)) (owner : o ≠ 0)
    (now : E.block .process = x.map (p, .process ·))
    (mine : ∀ q body, (w o).block .process = some (q, body) → q = p)
    (held : x = none → ∃ body, (w o).block .process = some (p, body)) :
    k'.processOf = Function.update k.processOf p (x.map (o, ·)) := by
  funext q
  ext ⟨o', pr⟩
  rw [accounts'.processOf_iff]
  by_cases here : q = p
  · subst here
    rw [Function.update_self]
    by_cases same : o' = o
    · subst same
      rw [Function.update_self, now]
      cases x <;> simp [owner]
    · rw [Function.update_of_ne same]
      constructor
      · rintro ⟨owner', other⟩
        cases x with
        | none =>
            obtain ⟨body, before⟩ := held rfl
            exact absurd (accounts.unique _ _ owner' owner other before).1 same
        | some pr' =>
            have after : (Function.update w o E o').block .process = some (q, .process pr) := by
              rw [Function.update_of_ne same, other]
            have own : (Function.update w o E o).block .process = some (q, .process pr') := by
              rw [Function.update_self, now, Option.map_some]
            exact absurd (accounts'.unique _ _ owner' owner after own).1 same
      · intro found
        cases x with
        | none => cases found
        | some pr' =>
            cases found
            exact absurd rfl same
  · rw [Function.update_of_ne here, accounts.processOf_iff]
    by_cases same : o' = o
    · subst same
      rw [Function.update_self, now]
      constructor
      · rintro ⟨_, found⟩
        cases x with
        | none => cases found
        | some pr' =>
            cases found
            exact absurd rfl here
      · rintro ⟨_, found⟩
        exact absurd (mine _ _ found) here
    · rw [Function.update_of_ne same]

variable {found : Option (Nat × Process)}

theorem nextOf_update (change : k'.processOf = Function.update k.processOf p found) :
    k'.nextOf = Function.update k.nextOf p (found.elim 0 (·.2.next)) := by
  funext q
  unfold nextOf
  rw [change]
  by_cases here : q = p
  · rw [here, Function.update_self, Function.update_self]
  · rw [Function.update_of_ne here, Function.update_of_ne here]

theorem prevOf_update (change : k'.processOf = Function.update k.processOf p found) :
    k'.prevOf = Function.update k.prevOf p (found.elim 0 (·.2.prev)) := by
  funext q
  unfold prevOf
  rw [change]
  by_cases here : q = p
  · rw [here, Function.update_self, Function.update_self]
  · rw [Function.update_of_ne here, Function.update_of_ne here]

theorem detail_update (change : k'.processOf = Function.update k.processOf p found) :
    k'.detail = Function.update k.detail p (found.map fun f => (f.1, f.2.bare)) := by
  funext q
  unfold detail
  rw [change]
  by_cases here : q = p
  · rw [here, Function.update_self, Function.update_self]
  · rw [Function.update_of_ne here, Function.update_of_ne here]

theorem detail_of_processOf {pr : Process} (found : k.processOf p = some (o, pr)) :
    k.detail p = some (o, pr.bare) := by
  unfold detail
  rw [found, Option.map_some]

theorem processOf_of_detail {b : Process} (known : k.detail p = some (o, b)) :
    ∃ pr, k.processOf p = some (o, pr) ∧ pr.bare = b ∧ pr.next = k.nextOf p ∧
      pr.prev = k.prevOf p := by
  unfold detail at known
  obtain ⟨⟨o', pr⟩, found, same⟩ := Option.map_eq_some_iff.mp known
  cases same
  refine ⟨pr, found, rfl, ?_, ?_⟩
  · rw [nextOf, found, Option.elim_some]
  · rw [prevOf, found, Option.elim_some]

end Views

section Fields

variable {covered enough : Prop} {spare : M.Budget} {k : Kernel M} {w : Estates} {o p x offset : Nat}
  {b : Process}

/-- The registers are no part of what the estates account for. -/
theorem Accounts.registers (accounts : Accounts covered enough spare k w)
    (first last current pidInc : Nat) :
    Accounts covered enough spare
      { k with first := first, last := last, current := current, pidInc := pidInc } w :=
  { accounts with
    paging := { accounts.paging with
      boot := { accounts.paging.boot with }
      current := { accounts.paging.current with } }
    pages := accounts.pages
    directories := fun o owner p body held final =>
      { accounts.directories o owner p body held final with } }

theorem Accounts.ensures_readProcess (accounts : Accounts covered enough spare k w)
    (known : k.detail p = some (o, b)) (inside : offset < 68) :
    Command.Ensures (Excused M covered enough) k (processAt p offset) fun pr k' =>
      k' = k ∧ pr.bare = b ∧ pr.next = k.nextOf p ∧ pr.prev = k.prevOf p := by
  obtain ⟨pr, found, same⟩ := processOf_of_detail known
  obtain ⟨owner, held⟩ := accounts.processOf_iff.mp found
  apply (accounts.ensures_processAt owner held inside).mono
  rintro _ _ ⟨rfl, rfl⟩
  exact ⟨rfl, same⟩

/-- A field of the structure at `p` is written. -/
theorem Accounts.ensures_change (accounts : Accounts covered enough spare k w)
    (change : Process → Process) (known : k.detail p = some (o, b)) (inside : offset < 68) :
    Command.Ensures (Excused M covered enough) k (setProcess p offset change) fun _ k' =>
      (∃ w', Accounts covered enough spare k' w' ∧ Beside w w') ∧ Steady o k k' ∧
        ∃ pr, pr.bare = b ∧ pr.next = k.nextOf p ∧ pr.prev = k.prevOf p ∧
          k'.nextOf = Function.update k.nextOf p (change pr).next ∧
          k'.prevOf = Function.update k.prevOf p (change pr).prev ∧
          k'.detail = Function.update k.detail p (some (o, (change pr).bare)) := by
  obtain ⟨pr, found, bare, next, prev⟩ := processOf_of_detail known
  obtain ⟨owner, held⟩ := accounts.processOf_iff.mp found
  apply (accounts.ensures_setProcess change owner held inside).mono
  rintro _ k' ⟨accounts', steady⟩
  have processes := accounts.processOf_update (x := some (change pr)) accounts' owner
    (by rw [Estate.put_block, if_pos rfl, Option.map_some]) (fun q body held' => by
      rw [held] at held'
      cases held'
      rfl) (by simp)
  exact ⟨⟨_, accounts', beside_put⟩, steady, pr, bare, next, prev, nextOf_update processes,
    prevOf_update processes, detail_update processes⟩

theorem Accounts.ensures_setNext (accounts : Accounts covered enough spare k w)
    (known : k.detail p = some (o, b)) :
    Command.Ensures (Excused M covered enough) k (setProcess p 60 ({ · with next := x }))
      fun _ k' => (∃ w', Accounts covered enough spare k' w' ∧ Beside w w') ∧ Steady o k k' ∧
        k'.nextOf = Function.update k.nextOf p x ∧ k'.prevOf = k.prevOf ∧
          k'.detail = k.detail := by
  apply (accounts.ensures_change _ known (by decide)).mono
  rintro _ k' ⟨accounts', steady, pr, bare, _, prev, next', prev', detail'⟩
  refine ⟨accounts', steady, next', ?_, ?_⟩
  · rw [prev', Function.update_eq_self_iff]
    exact prev
  · rw [detail', Function.update_eq_self_iff, known, ← bare]
    rfl

theorem Accounts.ensures_setPrev (accounts : Accounts covered enough spare k w)
    (known : k.detail p = some (o, b)) :
    Command.Ensures (Excused M covered enough) k (setProcess p 64 ({ · with prev := x }))
      fun _ k' => (∃ w', Accounts covered enough spare k' w' ∧ Beside w w') ∧ Steady o k k' ∧
        k'.nextOf = k.nextOf ∧ k'.prevOf = Function.update k.prevOf p x ∧
          k'.detail = k.detail := by
  apply (accounts.ensures_change _ known (by decide)).mono
  rintro _ k' ⟨accounts', steady, pr, bare, next, _, next', prev', detail'⟩
  refine ⟨accounts', steady, ?_, prev', ?_⟩
  · rw [next', Function.update_eq_self_iff]
    exact next
  · rw [detail', Function.update_eq_self_iff, known, ← bare]
    rfl

/-- A field other than the links is written. -/
theorem Accounts.ensures_setDetail (accounts : Accounts covered enough spare k w)
    (change : Process → Process) (known : k.detail p = some (o, b)) (inside : offset < 68)
    (links : ∀ pr, (change pr).next = pr.next ∧ (change pr).prev = pr.prev ∧
      (change pr).bare = change pr.bare) :
    Command.Ensures (Excused M covered enough) k (setProcess p offset change)
      fun _ k' => (∃ w', Accounts covered enough spare k' w' ∧ Beside w w') ∧ Steady o k k' ∧
        k'.nextOf = k.nextOf ∧ k'.prevOf = k.prevOf ∧
          k'.detail = Function.update k.detail p (some (o, change b)) := by
  apply (accounts.ensures_change change known inside).mono
  rintro _ k' ⟨accounts', steady, pr, bare, next, prev, next', prev', detail'⟩
  obtain ⟨sameNext, samePrev, sameBare⟩ := links pr
  refine ⟨accounts', steady, ?_, ?_, ?_⟩
  · rw [next', sameNext, Function.update_eq_self_iff]
    exact next
  · rw [prev', samePrev, Function.update_eq_self_iff]
    exact prev
  · rw [detail', sameBare, bare]

end Fields

/-- The processes form one ring, in this order, and one of them runs, or none. -/
structure Linked (k : Kernel M) (order : List Nat) : Prop where
  ring : LinkedRing k.nextOf k.prevOf order
  live : ∀ p, p ∈ order ↔ (k.detail p).isSome
  first : k.first = order.head?.getD 0
  last : k.last = order.getLast?.getD 0
  current : k.current = 0 ∨ k.current ∈ order

/-- The scheduler's lists may change; the running process and the modules stay. -/
structure Kept (k k' : Kernel M) : Prop where
  cr3 : k'.cr3 = k.cr3
  current : k'.current = k.current
  owners : k'.owners = k.owners
  modules : ∀ f i, k.uses f = some (.module i) → k'.uses f = some (.module i)

theorem Kept.trans {k k' k'' : Kernel M} (first : Kept k k') (second : Kept k' k'') : Kept k k'' :=
  ⟨second.cr3.trans first.cr3, second.current.trans first.current, second.owners.trans first.owners,
    fun f i use => second.modules f i (first.modules f i use)⟩

theorem Steady.kept {o : Nat} {k k' : Kernel M} (steady : Steady o k k') : Kept k k' :=
  ⟨steady.calm.cr3, steady.calm.current, steady.calm.owners, steady.modules⟩

section Linking

variable {covered enough : Prop} {spare : M.Budget} {k : Kernel M} {w : Estates} {o p : Nat}
  {order : List Nat} {b before : Process}

theorem Linked.known (linked : Linked k order) (member : p ∈ order) :
    ∃ o b, k.detail p = some (o, b) := by
  obtain ⟨⟨o, b⟩, known⟩ := Option.isSome_iff_exists.mp ((linked.live p).mp member)
  exact ⟨o, b, known⟩

theorem Accounts.detail_ne_zero (accounts : Accounts covered enough spare k w)
    (known : k.detail p = some (o, b)) : p ≠ 0 := by
  obtain ⟨pr, found, _⟩ := processOf_of_detail known
  obtain ⟨owner, held⟩ := accounts.processOf_iff.mp found
  exact (accounts.fits owner held).2

/-- The new process a link makes. -/
def linkedProcess (processMemory pid : Nat) (before : Process) : Process :=
  { processState := { before.processState with stack := userStack }
    processMemory := processMemory, ring0 := false, pid := pid, next := 0, prev := 0 }

theorem Accounts.ensures_beginRing (accounts : Accounts covered enough spare k w)
    (known : k.detail p = some (o, b)) :
    Command.Ensures (Excused M covered enough) k (beginRing p) fun _ k' =>
      (∃ w', Accounts covered enough spare k' w' ∧ Beside w w') ∧ Kept k k' ∧
        k'.first = (if k.first = 0 then p else k.first) ∧
        k'.last = (if k.first = 0 then p else k.last) ∧ k'.pidInc = k.pidInc ∧
        k'.nextOf = k.nextOf ∧ (∃ x, k'.prevOf = Function.update k.prevOf p x) ∧
        k'.detail = k.detail := by
  unfold beginRing
  apply Command.ensures_get_bind
  by_cases empty : k.first = 0
  · rw [if_pos empty, if_pos empty, if_pos empty]
    apply Command.ensures_set_bind
    have opened := accounts.registers p p k.current k.pidInc
    apply (opened.ensures_setPrev known).mono
    rintro _ k' ⟨accounts', steady, next, prev, detail⟩
    have kept := steady.kept
    exact ⟨accounts', ⟨kept.cr3, kept.current, kept.owners, kept.modules⟩, steady.calm.first,
      steady.calm.last, steady.calm.pidInc, next, ⟨_, prev⟩, detail⟩
  · rw [if_neg empty, if_neg empty, if_neg empty]
    exact Command.ensures_pure _ ⟨⟨w, accounts, .refl w⟩, (Steady.refl (o := o) k).kept, rfl, rfl, rfl, rfl,
      ⟨k.prevOf p, (Function.update_eq_self p k.prevOf).symm⟩, rfl⟩

theorem Accounts.ensures_fillProcess {processMemory : Nat}
    (accounts : Accounts covered enough spare k w) (known : k.detail p = some (o, b)) :
    Command.Ensures (Excused M covered enough) k (fillProcess p processMemory) fun _ k' =>
      (∃ w', Accounts covered enough spare k' w' ∧ Beside w w') ∧ Kept k k' ∧
        k'.first = k.first ∧ k'.last = k.last ∧ k'.pidInc = u32 (k.pidInc + 1) ∧
        k'.nextOf = k.nextOf ∧ k'.prevOf = k.prevOf ∧
        k'.detail = Function.update k.detail p (some (o, { b with
          processState := { b.processState with stack := userStack }
          processMemory := processMemory, ring0 := false, pid := k.pidInc })) := by
  unfold fillProcess
  apply Command.ensures_get_bind
  refine Command.ensures_bind (accounts.ensures_setDetail _ known (by decide : 48 < 68)
    fun _ => ⟨rfl, rfl, rfl⟩) ?_
  rintro _ k₁ ⟨⟨w₁, accounts₁, beside₁⟩, steady₁, next₁, prev₁, detail₁⟩
  apply Command.ensures_modify_bind
  have counted := accounts₁.registers k₁.first k₁.last k₁.current (u32 (k₁.pidInc + 1))
  have known₁ : k₁.detail p = some (o, { b with
      processMemory := processMemory, ring0 := false, pid := k.pidInc }) := by
    rw [detail₁, Function.update_self]
  refine (counted.ensures_setDetail
    (fun p => { p with processState := { p.processState with stack := userStack } }) known₁
    (by decide : 28 < 68) fun _ => ⟨rfl, rfl, rfl⟩).mono ?_
  rintro _ k₂ ⟨⟨w₂, accounts₂, beside₂⟩, steady₂, next₂, prev₂, detail₂⟩
  have kept := steady₂.kept
  refine ⟨⟨w₂, accounts₂, beside₁.trans beside₂⟩,
    steady₁.kept.trans ⟨kept.cr3, kept.current, kept.owners, kept.modules⟩,
    steady₂.calm.first.trans steady₁.calm.first, steady₂.calm.last.trans steady₁.calm.last, ?_,
    next₂.trans next₁, prev₂.trans prev₁, ?_⟩
  · rw [steady₂.calm.pidInc]
    dsimp only
    rw [steady₁.calm.pidInc]
  · have before : Kernel.detail { k₁ with pidInc := u32 (k₁.pidInc + 1) } = k₁.detail := rfl
    rw [detail₂, before, detail₁, Function.update_idem]

theorem Accounts.ensures_joinRing {o₁ o₂ : Nat} {b₁ b₂ : Process}
    (accounts : Accounts covered enough spare k w) (known : k.detail p = some (o, b))
    (first : k.detail k.first = some (o₁, b₁)) (last : k.detail k.last = some (o₂, b₂)) :
    Command.Ensures (Excused M covered enough) k (joinRing p) fun _ k' =>
      (∃ w', Accounts covered enough spare k' w' ∧ Beside w w') ∧ Kept k k' ∧
        k'.first = k.first ∧ k'.last = p ∧ k'.pidInc = k.pidInc ∧
        k'.nextOf = Function.update (Function.update k.nextOf p k.first) k.last p ∧
        k'.prevOf = Function.update (Function.update k.prevOf p k.last) k.first p ∧
        k'.detail = k.detail := by
  unfold joinRing
  apply Command.ensures_get_bind
  apply Command.ensures_bind (accounts.ensures_setPrev known)
  rintro _ k₁ ⟨⟨w₁, accounts₁, beside₁⟩, steady₁, next₁, prev₁, detail₁⟩
  apply Command.ensures_bind (accounts₁.ensures_setNext (by rw [detail₁]; exact known))
  rintro _ k₂ ⟨⟨w₂, accounts₂, beside₂⟩, steady₂, next₂, prev₂, detail₂⟩
  apply Command.ensures_bind (accounts₂.ensures_setPrev (by rw [detail₂, detail₁]; exact first))
  rintro _ k₃ ⟨⟨w₃, accounts₃, beside₃⟩, steady₃, next₃, prev₃, detail₃⟩
  refine Command.ensures_bind (accounts₃.ensures_setNext
    (by rw [detail₃, detail₂, detail₁]; exact last)) ?_
  rintro _ k₄ ⟨⟨w₄, accounts₄, beside₄⟩, steady₄, next₄, prev₄, detail₄⟩
  have calm := ((steady₁.calm.trans steady₂.calm).trans steady₃.calm).trans steady₄.calm
  have kept := ((steady₁.kept.trans steady₂.kept).trans steady₃.kept).trans steady₄.kept
  refine Command.ensures_modify _ ⟨⟨w₄, accounts₄.registers k₄.first p k₄.current k₄.pidInc,
    ((beside₁.trans beside₂).trans beside₃).trans beside₄⟩,
    ⟨kept.cr3, kept.current, kept.owners, kept.modules⟩, calm.first, rfl,
    calm.pidInc, ?_, ?_, ?_⟩
  · exact next₄.trans (by rw [next₃, next₂, next₁])
  · exact prev₄.trans (by rw [prev₃, prev₂, prev₁])
  · exact detail₄.trans (by rw [detail₃, detail₂, detail₁])

theorem Linked.last_concat {q : Nat} (linked : Linked k (order ++ [q])) : k.last = q := by
  rw [linked.last, List.getLast?_concat]
  rfl

theorem Accounts.ensures_linkProcess {processMemory : Nat}
    (accounts : Accounts covered enough (M.linkAsks spare) k w) (owner : o ≠ 0) (drawn : o < k.owners)
    (new : (w o).block .process = none) (linked : Linked k order) :
    Command.Ensures (Excused M covered enough) k (linkProcess processMemory o before) fun p k' =>
      (∃ w', Accounts covered enough spare k' w' ∧ Beside w w') ∧ Kept k k' ∧ p ∉ order ∧
        Linked k' (order ++ [p]) ∧ k'.pidInc = u32 (k.pidInc + 1) ∧
        k'.detail = Function.update k.detail p
          (some (o, linkedProcess processMemory k.pidInc before)) := by
  unfold linkProcess
  refine Command.ensures_bind (accounts.ensures_malloc drawn (fun zero => absurd zero owner)
    (fun _ => new) trivial fun _ => Body.noConfusion) ?_
  rintro p k₁ ⟨nonzero, accounts₁, steady₁⟩
  have processes := accounts.processOf_update (x := some before) accounts₁ owner
    (by rw [Estate.put_block, if_pos rfl, Option.map_some]) (fun q body held => by
      rw [new] at held
      cases held) (by simp)
  have fresh : k.detail p = none := by
    cases known : k.detail p with
    | none => rfl
    | some found =>
        obtain ⟨o', b'⟩ := found
        obtain ⟨pr, old, _⟩ := processOf_of_detail known
        obtain ⟨owner', held⟩ := accounts.processOf_iff.mp old
        have other : o' ≠ o := by
          rintro rfl
          rw [new] at held
          cases held
        have same := accounts₁.unique .process .process owner owner'
          (by rw [Function.update_self, Estate.put_block, if_pos rfl])
          (by rw [Function.update_of_ne other]; exact held)
        exact absurd same.1.symm other
  have absent : p ∉ order := by
    rw [linked.live, fresh]
    exact Bool.false_ne_true
  have detail₁ := detail_update processes
  have next₁ := nextOf_update processes
  have prev₁ := prevOf_update processes
  rw [Option.map_some, Option.map_some] at detail₁
  have known₁ : k₁.detail p = some (o, before.bare) := by rw [detail₁, Function.update_self]
  apply Command.ensures_bind (accounts₁.ensures_beginRing known₁)
  rintro _ k₂ ⟨⟨w₂, accounts₂, beside₂⟩, kept₂, first₂, last₂, pid₂, next₂, ⟨x, prev₂⟩, detail₂⟩
  apply Command.ensures_bind (accounts₂.ensures_fillProcess (by rw [detail₂, known₁]))
  rintro _ k₃ ⟨⟨w₃, accounts₃, beside₃⟩, kept₃, first₃, last₃, pid₃, next₃, prev₃, detail₃⟩
  rw [detail₂, detail₁, Function.update_idem, pid₂, steady₁.calm.pidInc] at detail₃
  rw [first₂, steady₁.calm.first, linked.first] at first₃
  rw [last₂, steady₁.calm.first, steady₁.calm.last, linked.first, linked.last] at last₃
  have known₃ : k₃.detail p = some (o, linkedProcess processMemory k.pidInc before) := by
    rw [detail₃, Function.update_self]
    rfl
  have others : ∀ q ∈ order, ∃ o' b', k₃.detail q = some (o', b') := by
    intro q member
    obtain ⟨o', b', known⟩ := linked.known member
    have other : q ≠ p := fun same => absent (same ▸ member)
    exact ⟨o', b', by rw [detail₃, Function.update_of_ne other, known]⟩
  have ends : k₃.first = order.head?.getD p ∧ k₃.last = order.getLast?.getD p ∧
      (∃ o' b', k₃.detail k₃.first = some (o', b')) ∧
      ∃ o' b', k₃.detail k₃.last = some (o', b') := by
    cases order with
    | nil =>
        have first : k₃.first = p := first₃
        have last : k₃.last = p := last₃
        exact ⟨first, last, ⟨o, _, first ▸ known₃⟩, ⟨o, _, last ▸ known₃⟩⟩
    | cons a rest =>
        obtain ⟨o', b', known⟩ := linked.known (List.mem_cons_self ..)
        have nonzero := accounts.detail_ne_zero known
        have first : k₃.first = a := by simpa [nonzero] using first₃
        have last : k₃.last = (a :: rest).getLast (List.cons_ne_nil a rest) := by
          simpa [nonzero, List.getLast?_eq_some_getLast] using last₃
        refine ⟨first, ?_, first ▸ others a (List.mem_cons_self ..),
          last ▸ others _ (List.getLast_mem _)⟩
        rw [last, List.getLast?_eq_some_getLast (List.cons_ne_nil a rest), Option.getD_some]
  obtain ⟨firstIs, lastIs, ⟨o₁, b₁, firstKnown⟩, ⟨o₂, b₂, lastKnown⟩⟩ := ends
  apply Command.ensures_bind (accounts₃.ensures_joinRing known₃ firstKnown lastKnown)
  rintro _ k₄ ⟨⟨w₄, accounts₄, beside₄⟩, kept₄, first₄, last₄, pid₄, next₄, prev₄, detail₄⟩
  rw [next₃, next₂, next₁, Function.update_idem] at next₄
  rw [prev₃, prev₂, prev₁, Function.update_idem, Function.update_idem] at prev₄
  rw [detail₃] at detail₄
  have kept := ((steady₁.kept.trans kept₂).trans kept₃).trans kept₄
  have pid : k₄.pidInc = u32 (k.pidInc + 1) := by rw [pid₄, pid₃, pid₂, steady₁.calm.pidInc]
  refine Command.ensures_pure _ ⟨⟨w₄, accounts₄, ?_⟩, kept, absent, ?_, pid, detail₄⟩
  · exact ((beside_put.trans beside₂).trans beside₃).trans beside₄
  refine ⟨?_, fun q => ?_, ?_, ?_, ?_⟩
  · rw [next₄, prev₄, firstIs, lastIs]
    cases order with
    | nil => exact LinkedRing.singleton (by simp) (by simp)
    | cons a rest =>
        have tail := List.getLast?_eq_some_getLast (List.cons_ne_nil a rest)
        rw [tail]
        exact linked.ring.append rfl tail absent
  · rw [detail₄, List.mem_append, List.mem_singleton]
    by_cases here : q = p
    · simp [here]
    · rw [Function.update_of_ne here, ← linked.live]
      simp [here]
  · rw [first₄, firstIs]
    cases order <;> rfl
  · rw [last₄, List.getLast?_concat, Option.getD_some]
  · rw [kept.current]
    exact linked.current.imp_right fun member => List.mem_append_left _ member

end Linking

section Unlinking

variable {covered enough : Prop} {spare : M.Budget} {k : Kernel M} {w : Estates} {o p : Nat}
  {b : Process}

theorem Accounts.ensures_nextField (accounts : Accounts covered enough spare k w)
    (known : k.detail p = some (o, b)) :
    Command.Ensures (Excused M covered enough) k (nextField p) fun x k' =>
      k' = k ∧ x = k.nextOf p := by
  unfold nextField
  apply Command.ensures_bind (accounts.ensures_readProcess known (by decide))
  rintro pr _ ⟨rfl, _, next, _⟩
  exact Command.ensures_pure _ ⟨rfl, next⟩

theorem Accounts.ensures_prevField (accounts : Accounts covered enough spare k w)
    (known : k.detail p = some (o, b)) :
    Command.Ensures (Excused M covered enough) k (prevField p) fun x k' =>
      k' = k ∧ x = k.prevOf p := by
  unfold prevField
  apply Command.ensures_bind (accounts.ensures_readProcess known (by decide))
  rintro pr _ ⟨rfl, _, _, prev⟩
  exact Command.ensures_pure _ ⟨rfl, prev⟩

theorem Accounts.ensures_moveFirst (accounts : Accounts covered enough spare k w)
    (known : k.detail k.current = some (o, b)) :
    Command.Ensures (Excused M covered enough) k moveFirst fun _ k' => k' = { k with
      first := if k.current = k.first then k.nextOf k.current else k.first } := by
  unfold moveFirst
  apply Command.ensures_get_bind
  split
  · apply Command.ensures_bind (accounts.ensures_nextField known)
    rintro _ k ⟨rfl, rfl⟩
    exact Command.ensures_set _ rfl
  · exact Command.ensures_pure _ rfl

theorem Accounts.ensures_moveLast (accounts : Accounts covered enough spare k w)
    (known : k.detail k.current = some (o, b)) :
    Command.Ensures (Excused M covered enough) k moveLast fun _ k' => k' = { k with
      last := if k.current = k.last then k.prevOf k.current else k.last } := by
  unfold moveLast
  apply Command.ensures_get_bind
  split
  · apply Command.ensures_bind (accounts.ensures_prevField known)
    rintro _ k ⟨rfl, rfl⟩
    exact Command.ensures_set _ rfl
  · exact Command.ensures_pure _ rfl

theorem Accounts.ensures_bridgeCurrent {o₁ o₂ : Nat} {b₁ b₂ : Process}
    (accounts : Accounts covered enough spare k w) (known : k.detail k.current = some (o, b))
    (next : k.detail (k.nextOf k.current) = some (o₁, b₁))
    (prev : k.detail (k.prevOf k.current) = some (o₂, b₂)) :
    Command.Ensures (Excused M covered enough) k bridgeCurrent fun _ k' =>
      (∃ w', Accounts covered enough spare k' w' ∧ Beside w w') ∧ Kept k k' ∧ Calm k k' ∧
        k'.nextOf = Function.update k.nextOf (k.prevOf k.current) (k.nextOf k.current) ∧
        k'.prevOf = Function.update k.prevOf (k.nextOf k.current) (k.prevOf k.current) ∧
        k'.detail = k.detail := by
  unfold bridgeCurrent
  apply Command.ensures_get_bind
  apply Command.ensures_bind (accounts.ensures_nextField known)
  rintro _ k ⟨rfl, rfl⟩
  apply Command.ensures_bind (accounts.ensures_prevField known)
  rintro _ k ⟨rfl, rfl⟩
  apply Command.ensures_bind (accounts.ensures_setNext prev)
  rintro _ k₁ ⟨⟨w₁, accounts₁, beside₁⟩, steady₁, next₁, prev₁, detail₁⟩
  apply Command.ensures_bind (accounts₁.ensures_prevField (by rw [detail₁]; exact known))
  rintro _ k₁ ⟨rfl, rfl⟩
  apply Command.ensures_bind (accounts₁.ensures_nextField (by rw [detail₁]; exact known))
  rintro _ k₁ ⟨rfl, rfl⟩
  -- the first link does not change where the current process's own one leads
  have same : k₁.nextOf k.current = k.nextOf k.current := by
    rw [next₁, Function.update_apply]
    split <;> rfl
  rw [same, prev₁]
  apply (accounts₁.ensures_setPrev (by rw [detail₁]; exact next)).mono
  rintro _ k₂ ⟨⟨w₂, accounts₂, beside₂⟩, steady₂, next₂, prev₂, detail₂⟩
  exact ⟨⟨w₂, accounts₂, beside₁.trans beside₂⟩, steady₁.kept.trans steady₂.kept,
    steady₁.calm.trans steady₂.calm, next₂.trans next₁,
    by rw [prev₂, prev₁], detail₂.trans detail₁⟩

/-- The current process leaves the ring, where there are others. Its own links stay. -/
theorem Accounts.ensures_unlink {l₁ l₂ : List Nat} (accounts : Accounts covered enough spare k w)
    (linked : Linked k (l₁ ++ k.current :: l₂)) (more : l₁ ++ l₂ ≠ []) :
    Command.Ensures (Excused M covered enough) k (do
      moveFirst
      moveLast
      bridgeCurrent) fun _ k' =>
      (∃ w', Accounts covered enough spare k' w' ∧ Beside w w') ∧ Kept k k' ∧
        k'.pidInc = k.pidInc ∧ LinkedRing k'.nextOf k'.prevOf (l₁ ++ l₂) ∧
        k'.first = (l₁ ++ l₂).head?.getD 0 ∧ k'.last = (l₁ ++ l₂).getLast?.getD 0 ∧
        k'.nextOf k.current = k.nextOf k.current ∧ k'.detail = k.detail := by
  have member : k.current ∈ l₁ ++ k.current :: l₂ := by simp
  obtain ⟨o, b, known⟩ := linked.known member
  obtain ⟨o₁, b₁, next⟩ := linked.known (linked.ring.next_mem member).1
  obtain ⟨o₂, b₂, prev⟩ := linked.known (linked.ring.prev_mem member).1
  apply Command.ensures_bind (accounts.ensures_moveFirst known)
  rintro _ _ rfl
  have started := accounts.registers
    (if k.current = k.first then k.nextOf k.current else k.first) k.last k.current k.pidInc
  apply Command.ensures_bind (started.ensures_moveLast known)
  rintro _ _ rfl
  have moved := accounts.registers
    (if k.current = k.first then k.nextOf k.current else k.first)
    (if k.current = k.last then k.prevOf k.current else k.last) k.current k.pidInc
  apply (moved.ensures_bridgeCurrent known next prev).mono
  rintro _ k₂ ⟨accounts₂, kept, calm, next₂, prev₂, detail₂⟩
  refine ⟨accounts₂, ⟨kept.cr3, kept.current, kept.owners, kept.modules⟩, calm.pidInc, ?_,
    ?_, ?_, ?_, detail₂⟩
  · rw [next₂, prev₂]
    exact linked.ring.remove more
  · obtain ⟨first, head⟩ : ∃ first, (l₁ ++ k.current :: l₂).head? = some first := by
      cases l₁ <;> exact ⟨_, rfl⟩
    have start := linked.first
    rw [head, Option.getD_some] at start
    rw [linked.ring.head_remove more head, ← start]
    exact calm.first
  · obtain ⟨last, tail⟩ : ∃ last, (l₁ ++ k.current :: l₂).getLast? = some last :=
      ⟨_, List.getLast?_eq_some_getLast (by simp)⟩
    have finish := linked.last
    rw [tail, Option.getD_some] at finish
    rw [linked.ring.getLast_remove more tail, ← finish]
    exact calm.last
  · apply (congrFun next₂ _).trans
    rw [Function.update_apply]
    exact ite_eq_right_iff.mpr fun _ => rfl

end Unlinking

section Switching

variable {k : Kernel M} {p offset : Nat}

/-- The faults of a switch: a bad pointer or a page that is not mapped. -/
def Lost (fault : Fault) : Prop := fault = .undefined ∨ fault = .pageFault ∨ fault = .halted

theorem switch_visit : Command.Ensures Lost k (visit p offset) fun _ k' => k' = k := by
  unfold visit
  apply Command.ensures_get_bind
  cases k.blocks p with
  | none => exact Command.ensures_throw _ (Or.inl rfl)
  | some block =>
    have resolved : Command.Ensures Lost k (resolve (p + offset)) fun _ k' => k' = k :=
      ensures_resolve (fun _ _ => rfl) fun _ => Or.inr (Or.inl rfl)
    apply Command.ensures_bind resolved
    rintro _ _ rfl
    exact Command.ensures_pure _ rfl

theorem switch_processAt : Command.Ensures Lost k (processAt p offset) fun _ k' => k' = k := by
  unfold processAt
  apply Command.ensures_bind switch_visit
  rintro ⟨body, _, _⟩ _ rfl
  cases body with
  | process pr => exact Command.ensures_pure _ rfl
  | _ => exact Command.ensures_throw _ (Or.inl rfl)

theorem switch_setProcess {change : Process → Process} :
    Command.Ensures Lost k (setProcess p offset change) fun _ k' => k'.heap = k.heap := by
  unfold setProcess
  apply Command.ensures_bind switch_processAt
  rintro pr _ rfl
  exact Command.ensures_modify _ rfl

end Switching

section Running

variable {covered enough : Prop} {spare : M.Budget} {k : Kernel M} {w : Estates} {o p : Nat}
  {b : Process} {m : ProcessMemory}

theorem Accounts.ensures_loadSpace (accounts : Accounts covered enough spare k w)
    (known : k.detail p = some (o, b)) (ready : (w o).Ready b.processMemory m)
    (window : covered → M.allocator.heapEnd k.heap ≤ 0xC0400000) :
    Command.Ensures (Excused M covered enough) k (loadSpace p) fun _ k' =>
      ∃ x, k' = { k with cr3 := x } ∧ x / 4096 = (w o).frame .directory 0 ∧
        Accounts covered enough spare k' w := by
  obtain ⟨pr, found, bare, _⟩ := processOf_of_detail known
  obtain ⟨owner, _⟩ := accounts.processOf_iff.mp found
  unfold loadSpace
  apply Command.ensures_bind (accounts.ensures_readProcess known (by decide))
  rintro pr k ⟨rfl, rfl, _⟩
  apply Command.ensures_bind (accounts.ensures_pageDirectoryOf owner ready.laid.memory)
  rintro _ k ⟨rfl, rfl⟩
  have place := accounts.ensures_getPhysicalAddress owner ready.laid.directory (Nat.succ_pos 0)
  rw [Nat.mul_zero, Nat.add_zero] at place
  apply Command.ensures_bind place
  rintro x k ⟨rfl, frame | ⟨rfl, unmapped⟩⟩
  · have address : x / 4096 = (w o).frame .directory 0 := by omega
    have nonzero : x / 4096 ≠ 0 := by
      rw [address]
      have use := (accounts.page owner ready.laid.directory (Nat.succ_pos 0)).2.2.2
      exact frame_ne use accounts.paging.low (by simp)
    unfold loadCr3
    rw [if_neg nonzero]
    exact Command.ensures_modify _ ⟨x, rfl, address,
      accounts.loaded owner ready.laid.directory ready.final window address⟩
  · -- an address that is not mapped reads as frame 0
    unfold loadCr3
    rw [if_pos (by decide)]
    refine Command.ensures_throw _ fun so => unmapped ?_
    have page := (accounts.page owner ready.laid.directory (Nat.succ_pos 0)).2.1
    exact accounts.paging.covers so _ page

theorem Accounts.ensures_runProcess (accounts : Accounts covered enough spare k w)
    (known : k.detail p = some (o, b)) (ready : (w o).Ready b.processMemory m)
    (window : covered → M.allocator.heapEnd k.heap ≤ 0xC0400000) :
    Command.Ensures (Excused M covered enough) k (runProcess p) fun r k' =>
      r = b.processState ∧ ∃ x, k' = { k with current := p, cr3 := x } ∧
        x / 4096 = (w o).frame .directory 0 ∧ Accounts covered enough spare k' w := by
  unfold runProcess
  apply Command.ensures_modify_bind
  have chosen := accounts.registers k.first k.last p k.pidInc
  apply Command.ensures_bind (chosen.ensures_loadSpace known ready window)
  rintro _ _ ⟨x, rfl, address, accounts₁⟩
  have known₁ : Kernel.detail { k with current := p, cr3 := x } p = some (o, b) := known
  apply Command.ensures_bind (accounts₁.ensures_readProcess known₁ (by decide : 0 < 68))
  rintro pr _ ⟨rfl, rfl, _⟩
  exact Command.ensures_pure _ ⟨rfl, x, rfl, address, accounts₁⟩

end Running

end Kernel

end Snfos
