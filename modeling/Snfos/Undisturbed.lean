import Snfos.Bookkeeping
import Snfos.UserMemory

set_option autoImplicit false

/- What a call leaves alone: the memory of every address space but the one it is about, the
modules' bytes, and what the bitmap reserves. -/
namespace Snfos

open ByteMemory Command

namespace Kernel

variable {M : Machine}

/-- No module's frames are taken or written to, and what is reserved stays so and is not written
to either, but for the first directory. -/
structure Spared (k k' : Kernel M) : Prop where
  modules : ∀ f i, k.uses f = some (.module i) → k'.uses f = some (.module i)
  contents : ∀ f i, k.uses f = some (.module i) → ∀ offset, offset < 4096 →
    k'.ram f offset = k.ram f offset
  reserved : ∀ f, Reserved k f → Reserved k' f
  bytes : ∀ f, Reserved k f → f ≠ M.bootPageDirectory → k'.ram f = k.ram f

/-- Memory, the bitmap and what the frames serve for are those of `k`. -/
def Frozen (k k' : Kernel M) : Prop :=
  k'.ram = k.ram ∧ k'.frames = k.frames ∧ k'.uses = k.uses

/-- The shadow of the owner lists page `j` of slot `i`. -/
def HasPage (k : Kernel M) (o i j : Nat) : Prop :=
  ∃ p t, k.blocks p = some ⟨.table t, .table i, o⟩ ∧ t.pages j ≠ 0

/-- A call that is about the blocks of `o₁` leaves alone the blocks and the memory of the others. -/
structure Leaves (k k' : Kernel M) (w : Estates) (o₁ : Nat) : Prop where
  spaces : ∀ o, o ≠ 0 → o ≠ o₁ → ∀ p m, (w o).Ready p m → k'.spaceMemory p = k.spaceMemory p
  blocks : ∀ o, o ≠ 0 → o ≠ o₁ → ∀ role, role ≠ .process → ∀ p body,
    k.blocks p = some ⟨body, role, o⟩ → k'.blocks p = some ⟨body, role, o⟩
  contents : ∀ f i, k.uses f = some (.module i) → ∀ offset, offset < 4096 →
    k'.ram f offset = k.ram f offset
  reserved : ∀ f, Reserved k f → Reserved k' f
  bytes : ∀ f, Reserved k f → f ≠ M.bootPageDirectory → k'.ram f = k.ram f

section Parts

variable {covered enough covered' enough' : Prop} {spare spare' : M.Budget} {k k' k'' : Kernel M}
  {w w' : Estates} {o o₁ : Nat}

/-- The directory in use is a page of the heap, or the first one. -/
theorem Accounts.bytes_spared {f : Nat} (accounts : Accounts covered enough spare k w)
    (spares : Spares k k') (reserved : Reserved k f) (other : f ≠ M.bootPageDirectory) :
    k'.ram f = k.ram f := by
  funext offset
  refine (spares f reserved).2 offset fun here => ?_
  rcases accounts.running with boot | ⟨o, owner, _, ⟨p, body, held⟩, frame⟩
  · exact absurd (here.trans boot) other
  · obtain rfl := accounts.directory_pages owner held
    obtain ⟨_, _, _, use⟩ := accounts.page owner held (by decide : 0 < 1)
    exact absurd (here.trans frame.symm) (reserved.ne use (by simp))

theorem Accounts.spared (accounts : Accounts covered enough spare k w) (steady : Steady o k k') :
    Spared k k' where
  modules := steady.modules
  contents := fun f i use offset _ => by rw [steady.contents f i use]
  reserved := fun f reserved => (steady.spares f reserved).1
  bytes := fun _ reserved other => accounts.bytes_spared steady.spares reserved other

theorem frozen_self (k : Kernel M) : Frozen k k := ⟨rfl, rfl, rfl⟩

theorem books_frozen (k : Kernel M) : Books (Frozen k) where
  same := fun _ _ ram frames uses _ _ _ frozen =>
    ⟨ram.trans frozen.1, frames.trans frozen.2.1, uses.trans frozen.2.2⟩
  freed := fun _ _ _ frozen => frozen

theorem Spared.of_frozen (frozen : Frozen k k') : Spared k k' := by
  obtain ⟨ram, frames, uses⟩ := frozen
  refine ⟨fun f i use => ?_, fun f i _ offset _ => ?_, fun f reserved => ?_, fun f _ _ => ?_⟩
  · rw [uses, use]
  · rw [ram]
  · unfold Reserved at reserved ⊢
    rw [frames, uses]
    exact reserved
  · rw [ram]

theorem Spared.trans (first : Spared k k') (second : Spared k' k'') : Spared k k'' where
  modules := fun f i use => second.modules f i (first.modules f i use)
  contents := fun f i use offset small => by
    rw [second.contents f i (first.modules f i use) offset small, first.contents f i use offset small]
  reserved := fun f reserved => second.reserved f (first.reserved f reserved)
  bytes := fun f reserved other =>
    (second.bytes f (first.reserved f reserved) other).trans (first.bytes f reserved other)

theorem Accounts.leaves (accounts : Accounts covered enough spare k w)
    (accounts' : Accounts covered' enough' spare' k' w')
    (others : ∀ o, o ≠ 0 → o ≠ o₁ → (w' o).drop .process = (w o).drop .process)
    (spared : Spared k k') : Leaves k k' w o₁ where
  spaces := fun o owner other p m ready =>
    accounts.spaceMemory_same accounts' owner ready (others o owner other)
  blocks := fun o owner other role shared p body live => by
    rw [← accounts.owned o owner] at live
    rw [← accounts'.owned o owner, Estate.block_of_drop (others o owner other) shared, live]
  contents := spared.contents
  reserved := spared.reserved
  bytes := spared.bytes

theorem Accounts.hasPage_iff {i j : Nat} (accounts : Accounts covered enough spare k w)
    (owner : o ≠ 0) : k.HasPage o i j ↔ (w o).Has i j := by
  unfold HasPage Estate.Has
  simp only [accounts.owned o owner]

theorem Leaves.hasPage {i j : Nat} (leaves : Leaves k k' w o₁) (owner : o ≠ 0) (other : o ≠ o₁)
    (has : k.HasPage o i j) : k'.HasPage o i j := by
  obtain ⟨p, t, live, listed⟩ := has
  exact ⟨p, t, leaves.blocks o owner other _ (by simp) p _ live, listed⟩

/-- Bookkeeping after what spares the rest. -/
theorem Spared.ensures_books {α : Type} {action : Action M α} (spared : Spared k k')
    (keeps : Keeps (Frozen k') action) :
    Ensures (fun _ => True) k' action fun _ k'' => Spared k k'' :=
  (keeps k' (frozen_self k')).mono fun _ _ frozen => spared.trans (.of_frozen frozen)

/-- A new process takes a block of the heap and a place in the ring. -/
theorem Accounts.ensures_linkProcess_spared {processMemory : Nat} {before : Process}
    (accounts : Accounts covered enough (M.linkAsks spare) k w) (owner : o ≠ 0) (drawn : o < k.owners)
    (new : (w o).block .process = none) :
    Ensures (fun _ => True) k (linkProcess processMemory o before) fun _ k' => Spared k k' := by
  unfold linkProcess
  have fits : Role.process.Fits (.process before) := trivial
  have allocates := accounts.ensures_malloc drawn (fun zero => absurd zero owner) (fun _ => new) fits
    fun _ => Body.noConfusion
  apply ensures_bind (allocates.excuse fun _ _ => trivial)
  rintro p k₁ ⟨_, _, steady⟩
  apply (accounts.spared steady).ensures_books
  apply keeps_bind (books_frozen _).keeps_beginRing
  intro _
  apply keeps_bind (books_frozen _).keeps_fillProcess
  intro _
  exact keeps_bind (books_frozen _).keeps_joinRing fun _ => keeps_pure _

theorem Accounts.ensures_fork_spared {b : Process} {m : ProcessMemory} (s : ProcessState)
    (before : Process) (accounts : Accounts covered enough (M.forkAsks spare (w o) m) k w)
    (known : k.detail k.current = some (o, b)) (parent : (w o).Ready b.processMemory m) :
    Ensures (fun _ => True) k (fork s before) fun _ k' => Spared k k' := by
  obtain ⟨pr, found, bare, _⟩ := processOf_of_detail known
  obtain ⟨owner', current⟩ := accounts.processOf_iff.mp found
  have drawn : o < k.owners := (accounts.blocks _ _ (accounts.live owner' current)).2.2.1
  have apart : o ≠ k.owners := Nat.ne_of_lt drawn
  unfold fork
  apply ensures_bind accounts.ensures_newOwner
  rintro _ k₁ ⟨rfl, owner, shape, accounts₁⟩
  have theirs : Function.update w k.owners Estate.new o = w o := Function.update_of_ne apart ..
  have memory : pr.processMemory = b.processMemory := by
    rw [← bare]
    rfl
  rw [← theirs] at accounts₁
  have inside : k.owners < k₁.owners := by
    rw [shape]
    exact Nat.lt_succ_self _
  have begun : Spared k k₁ := by
    rw [shape]
    exact .of_frozen ⟨rfl, rfl, rfl⟩
  have copies := accounts₁.ensures_forkMemory (m := m) owner inside (Function.update_self ..) owner'
    apart (by rw [theirs, shape]; exact current) (by rw [theirs, memory]; exact parent)
  apply ensures_bind (copies.excuse fun _ _ => trivial)
  rintro p k₂ ⟨steady₂, E, m', accounts₂, cloned, none⟩
  rw [Function.update_idem] at accounts₂
  refine ensures_bind (accounts₂.ensures_linkProcess_spared owner
    (by rw [steady₂.calm.owners]; exact inside) (by rw [Function.update_self]; exact none)) ?_
  intro q k₃ linked
  apply ((begun.trans (accounts₁.spared steady₂)).trans linked).ensures_books
  apply keeps_bind ((books_frozen _).keeps_setProcess _)
  intro _
  apply keeps_bind ((books_frozen _).keeps_setProcess _)
  intro _
  exact keeps_bind keeps_processAt fun _ => keeps_pure _

end Parts

end Kernel

namespace System

open Kernel

variable {M : Machine} {s : System M} {w : Estates} {order : List Nat}

/-- A call leaves everyone's memory but that of `o₁`. -/
abbrev LeavesOthers (s : System M) (w : Estates) (o₁ : Nat) (call : Call) : Prop :=
  Ensures (Stops M) s (step call) fun _ s' => Leaves s.kernel s'.kernel w o₁

theorem Sound.leaves_print (sound : Sound s w order) (state : ProcessState) :
    LeavesOthers s w 0 (.print state) := by
  apply ensures_systemCall
  intro _
  have stops : Excused M False False .halted := id
  apply (ensures_sysPrint stops).mono
  rintro r k ⟨rfl, rfl⟩
  exact sound.accounts.leaves sound.accounts (fun _ _ _ => rfl) (.of_frozen (frozen_self _))

theorem Sound.leaves_getPid (sound : Sound s w order) (state : ProcessState) :
    LeavesOthers s w 0 (.getPid state) := by
  apply ensures_systemCall
  intro running
  obtain ⟨o, b, m, known, _⟩ := sound.current_known running
  apply (sound.accounts.ensures_getPid known).mono
  rintro r k ⟨rfl, rfl⟩
  exact sound.accounts.leaves sound.accounts (fun _ _ _ => rfl) (.of_frozen (frozen_self _))

theorem Sound.leaves_yield (sound : Sound s w order) (state : ProcessState) :
    LeavesOthers s w 0 (.yield state) := by
  apply ensures_systemCall
  intro running
  obtain ⟨o, b, m, known, _⟩ := sound.current_known running
  have ensures := (sound.accounts.ensures_yield (s := state) sound.linked known sound.processes
    False.elim).and ((books_frozen _).keeps_yield state _ (frozen_self s.kernel))
  apply (ensures.excuse fun _ => And.left).mono
  rintro r k' ⟨⟨⟨w', accounts', beside⟩, _⟩, frozen⟩
  exact sound.accounts.leaves accounts' (fun o _ _ => beside o) (.of_frozen frozen)

theorem Sound.leaves_runProcess (sound : Sound s w order) (p : Nat) :
    LeavesOthers s w 0 (.runProcess p) := by
  show Ensures (Stops M) s (runProcess p) _
  unfold runProcess
  refine ensures_get_bind (ensures_ite (fun allowed => ?_) fun _ => ensures_refused)
  obtain ⟨⟨o, pr⟩, found⟩ := Option.isSome_iff_exists.mp allowed.2
  have known := detail_of_processOf found
  obtain ⟨m, ready⟩ := sound.processes _ _ _ known
  unfold returning
  apply ensures_onKernel (sound.accounts.ensures_runProcess known ready False.elim)
  rintro r _ ⟨rfl, x, rfl, _, accounts'⟩
  exact ensures_get_bind (ensures_pure _ (sound.accounts.leaves accounts' (fun _ _ _ => rfl)
    (.of_frozen ⟨rfl, rfl, rfl⟩)))

theorem Sound.leaves_handleExit (sound : Sound s w order) (state : ProcessState) {o : Nat} {b : Process}
    (known : s.kernel.detail s.kernel.current = some (o, b)) :
    LeavesOthers s w o (.handleExit state) := by
  apply ensures_systemCall
  intro _
  obtain ⟨m, ready⟩ := sound.processes _ _ _ known
  have member : s.kernel.current ∈ order := (sound.linked.live _).mpr (by rw [known]; rfl)
  obtain ⟨l₁, l₂, rfl⟩ := List.append_of_mem member
  by_cases more : l₁ ++ l₂ = []
  · obtain ⟨rfl, rfl⟩ := List.append_eq_nil_iff.mp more
    unfold handleExit
    apply ensures_get_bind
    rw [if_pos ⟨sound.linked.first.symm, sound.linked.last.symm⟩]
    exact ensures_throw _ id
  obtain ⟨o', b', known'⟩ := sound.linked.known (sound.linked.ring.next_mem member).1
  obtain ⟨m', ready'⟩ := sound.processes _ _ _ known'
  have ensures := (sound.accounts.ensures_handleExit (s := state) sound.linked more known ready known'
    ready' False.elim).and ((books_frozen _).keeps_handleExit state _ (frozen_self s.kernel))
  apply (ensures.excuse fun _ => And.left).mono
  rintro r k' ⟨⟨_, ⟨w₁, beside, accounts'⟩, _⟩, frozen⟩
  refine sound.accounts.leaves accounts' (fun o₂ _ other => ?_) (.of_frozen frozen)
  rw [Function.update_of_ne other]
  exact beside o₂

theorem Sound.leaves_fork (sound : Sound s w order) (state : ProcessState) (before : Process) :
    LeavesOthers s w s.kernel.owners (.fork state before) := by
  apply ensures_systemCall
  intro running
  obtain ⟨o, b, m, known, _, ready, _⟩ := sound.current_known running
  have accounts : Accounts False False (M.forkAsks M.nothing (w o) m) s.kernel w :=
    sound.accounts.unbounded _
  have forks : Ensures (Excused M False False) s.kernel (Kernel.fork state before) _ :=
    accounts.ensures_fork known ready sound.linked
  have both := forks.and (accounts.ensures_fork_spared state before known ready)
  apply (both.excuse fun _ => And.left).mono
  rintro r k' ⟨⟨_, w', q, p, m', accounts', _, others, _⟩, spared⟩
  exact sound.accounts.leaves accounts' (fun o _ other => others o other) spared

/-- A block of the kernel's own comes or goes. -/
theorem Sound.leaves_raw {k' : Kernel M} {E : Estate} (sound : Sound s w order)
    (accounts : Accounts False False M.nothing k' (Function.update w 0 E)) (steady : Steady 0 s.kernel k') :
    Leaves s.kernel k' w 0 :=
  sound.accounts.leaves accounts (fun o _ other => by rw [Function.update_of_ne other])
    (sound.accounts.spared steady)

theorem Sound.leaves_malloc (sound : Sound s w order) (size : Nat) :
    LeavesOthers s w 0 (.malloc size) := by
  show Ensures (Stops M) s (malloc size) _
  unfold malloc
  refine ensures_ite (fun _ => ?_) fun positive => ?_
  · exact ensures_pure _ (sound.accounts.leaves sound.accounts (fun _ _ _ => rfl)
      (.of_frozen (frozen_self _)))
  have accounts : Accounts False False (M.asks (.bytes (Body.raw size).size) fun _ => M.nothing)
      s.kernel w := sound.accounts.unbounded _
  refine ensures_onKernel (accounts.ensures_malloc
    (show 0 < s.kernel.owners from sound.accounts.owners) (fun _ => rfl)
    (fun nonzero => absurd rfl nonzero) (Nat.pos_of_ne_zero positive) fun _ => Body.noConfusion) ?_
  rintro p k' ⟨_, accounts', steady⟩
  exact ensures_pure _ (sound.leaves_raw accounts' steady)

theorem Sound.leaves_mallocPages (sound : Sound s w order) (pages : Nat) :
    LeavesOthers s w 0 (.mallocPages pages) := by
  show Ensures (Stops M) s (mallocPages pages) _
  unfold mallocPages
  by_cases zero : pages = 0
  · rw [zero]
    apply ensures_onKernel sound.accounts.ensures_mallocPages_zero
    rintro p k' ⟨_, rfl⟩
    exact ensures_pure _ (sound.accounts.leaves sound.accounts (fun _ _ _ => rfl)
      (.of_frozen (frozen_self _)))
  have accounts : Accounts False False (M.asks (.pages pages) fun _ => M.nothing) s.kernel w :=
    sound.accounts.unbounded _
  refine ensures_onKernel (accounts.ensures_mallocPages
    (show 0 < s.kernel.owners from sound.accounts.owners) (fun _ => rfl)
    (fun nonzero => absurd rfl nonzero) (Nat.pos_of_ne_zero zero) nofun) ?_
  rintro p k' ⟨_, _, ⟨frames, bytes, accounts'⟩, steady, _⟩
  exact ensures_pure _ (sound.leaves_raw accounts' steady)

theorem Sound.leaves_free (sound : Sound s w order) (pointer : Nat) :
    LeavesOthers s w 0 (.free pointer) := by
  show Ensures (Stops M) s (free pointer) _
  unfold free
  refine ensures_get_bind (ensures_ite (fun allowed => ?_) fun _ => ensures_refused)
  rcases allowed with rfl | own
  · apply ensures_onKernel ensures_free_null
    rintro _ k' rfl
    exact ensures_pure _ (sound.accounts.leaves sound.accounts (fun _ _ _ => rfl)
      (.of_frozen (frozen_self _)))
  · cases live : s.kernel.blocks pointer with
    | none =>
      rw [live] at own
      cases own
    | some block =>
      rw [live, Option.any_some, decide_eq_true_eq] at own
      obtain ⟨body, role, owner⟩ := block
      have raw := (sound.accounts.blocks _ _ live).2.2.2.1
      dsimp only at own raw
      obtain rfl := own
      obtain rfl := raw rfl
      have accounts : Accounts False False (M.frees pointer M.nothing) s.kernel w := sound.accounts
      refine ensures_onKernel (accounts.ensures_release live (fun nonzero => absurd rfl nonzero)
        nofun) ?_
      rintro _ k' ⟨accounts', steady⟩
      exact ensures_pure _ (sound.leaves_raw accounts' steady)

end System

end Snfos
