import Snfos.SmallMachine

set_option autoImplicit false

/- What an exit frees: all blocks of the process, unless pages of its code past the first
are blocks of their own, as those of a forked process are. -/
namespace Snfos

namespace Kernel

variable {M : Machine}

/-- No page of slot 0 but the first is a block: the code of the process was loaded and lies in
one block, or it has one page. -/
def CodeInOne (k : Kernel M) (p : Nat) : Prop :=
  ∀ m t role o, k.memoryOf p = some m → k.blocks (m.pageTables 0) = some ⟨.table t, role, o⟩ →
    ∀ j, 0 < j → j < 1024 → t.pages j ≠ 0 → k.blocks (t.pages j) = none

section Sweeping

variable {covered enough : Prop} {spare : M.Budget} {k : Kernel M} {w : Estates} {o p j : Nat}
  {m : ProcessMemory} {t : ProcessPageTable}

/-- A listed page is no block exactly where it is a later page of another block. -/
theorem Accounts.block_of_page (accounts : Accounts covered enough spare k w) (owner : o ≠ 0)
    (table : (w o).TableReady 0 p t) (inside : j < 1024) (listed : t.pages j ≠ 0) :
    k.blocks (t.pages j) = none ↔ (w o).block (.page 0 j) = none := by
  rcases table.pages j inside with ⟨absent, _⟩ | ⟨j', c, q, place, pointer, _⟩
  · exact absurd absent listed
  obtain ⟨count, held, within, _⟩ := place.block
  have live := accounts.live owner held
  by_cases first : c = 0
  · have index := place.index
    rw [first, Nat.mul_zero, Nat.add_zero] at pointer
    rw [first, Nat.add_zero] at index
    rw [pointer, live, ← index, held]
    exact ⟨nofun, nofun⟩
  · refine ⟨fun _ => place.alone first, fun _ => ?_⟩
    by_contra some
    obtain ⟨block, live'⟩ := Option.ne_none_iff_exists'.mp some
    -- it would begin inside the block of the code
    have size : Body.size (.pages count) = 4096 * count := rfl
    have apart := accounts.apart live live' (by omega)
    rw [size] at apart
    omega

/-- The sweep reaches all blocks of a process exactly if its code is in one. -/
theorem Accounts.leaks_iff (accounts : Accounts covered enough spare k w) (owner : o ≠ 0)
    (ready : (w o).Ready p m) :
    (∀ role, role.leaked = true → (w o).block role = none) ↔
      ∀ t role o', k.blocks (m.pageTables 0) = some ⟨.table t, role, o'⟩ →
        ∀ j, 0 < j → j < 1024 → t.pages j ≠ 0 → k.blocks (t.pages j) = none := by
  rcases ready.laid.slotReady 0 (by decide) with ⟨zero, vacant, _⟩ | ⟨_, ⟨t, table⟩, _⟩
  · -- no table, no page
    refine ⟨fun _ t role o' live => ?_, fun _ role leaks => vacant role ?_⟩
    · exact absurd zero (accounts.blocks _ _ live).1
    · cases role with
      | page i j =>
        have first : i = 0 ∧ j ≠ 0 := of_decide_eq_true leaks
        rw [first.1]
        rfl
      | _ => cases leaks
  have live := accounts.live owner table.table
  constructor
  · intro none t' role o' live' j positive inside listed
    rw [live, Option.some.injEq, Block.mk.injEq, Body.table.injEq] at live'
    obtain ⟨rfl, _⟩ := live'
    exact (accounts.block_of_page owner table inside listed).mpr
      (none (.page 0 j) (decide_eq_true ⟨rfl, Nat.ne_of_gt positive⟩))
  · intro code role leaks
    cases role with
    | page i j =>
      obtain ⟨rfl, positive⟩ : i = 0 ∧ j ≠ 0 := of_decide_eq_true leaks
      by_cases inside : j < 1024
      · by_cases listed : t.pages j = 0
        · rcases table.pages j inside with ⟨_, absent, _⟩ | ⟨_, _, _, place, pointer, _⟩
          · exact absent
          · obtain ⟨count, held, _⟩ := place.block
            have nonzero := (accounts.fits owner held).2
            omega
        · exact (accounts.block_of_page owner table inside listed).mp
            (code t _ _ live j (Nat.pos_of_ne_zero positive) inside listed)
      · exact table.beyond j (by omega)
    | _ => cases leaks

end Sweeping

end Kernel

namespace System

open Kernel

variable {M : Machine} {s s' : System M} {w w' : Estates} {order order' : List Nat} {o : Nat}
  {b : Process} {m : ProcessMemory}

/-- The blocks of another process are there before an exit and after it. -/
theorem Exited.block_iff (exited : Exited s w w' o b m) (sound : Sound s w order)
    (sound' : Sound s' w' order')
    (detail : s'.kernel.detail = Function.update s.kernel.detail s.kernel.current none)
    {p o' : Nat} {role : Role} (owner' : o' ≠ 0) (other : o' ≠ o) :
    (∃ body, s'.kernel.blocks p = some ⟨body, role, o'⟩) ↔
      ∃ body, s.kernel.blocks p = some ⟨body, role, o'⟩ := by
  have before : ∀ body, (w o').block role = some (p, body) ↔
      s.kernel.blocks p = some ⟨body, role, o'⟩ := sound.accounts.owned o' owner' role p
  have after : ∀ body, (w' o').block role = some (p, body) ↔
      s'.kernel.blocks p = some ⟨body, role, o'⟩ := sound'.accounts.owned o' owner' role p
  simp only [← before, ← after]
  by_cases process : role = .process
  · subst process
    -- its process structure is not the one that left
    have known : (∃ b', s'.kernel.detail p = some (o', b')) ↔ ∃ b', s.kernel.detail p = some (o', b') := by
      rw [detail]
      by_cases here : p = s.kernel.current
      · rw [here, Function.update_self, exited.known]
        constructor
        · rintro ⟨_, found⟩
          cases found
        · rintro ⟨_, found⟩
          cases found
          exact absurd rfl other
      · rw [Function.update_of_ne here]
    rw [sound'.accounts.process_iff owner', sound.accounts.process_iff owner', known]
  · rw [Estate.block_of_drop (exited.others o' other) process]

/-- After any calls, an exit frees no block of another process, and all of the process's own
exactly if its code is in one block. It frees no block twice and reads none that it has freed:
that would be undefined, and no call stops there. -/
theorem run_reclaims (calls : List Call) (state : ProcessState) :
    Command.Ensures (Stops M) (boot M) (run calls) fun _ s =>
      Command.Ensures (Stops M) s (step (.handleExit state)) fun _ s' =>
        ∃ o pr, s.kernel.processOf s.kernel.current = some (o, pr) ∧
          (∀ p role o', o' ≠ 0 → o' ≠ o →
            ((∃ body, s'.kernel.blocks p = some ⟨body, role, o'⟩) ↔
              ∃ body, s.kernel.blocks p = some ⟨body, role, o'⟩)) ∧
          ((∀ p block, s'.kernel.blocks p = some block → block.owner ≠ o) ↔
            CodeInOne s.kernel s.kernel.current) := by
  apply (boot_sound.run calls).mono
  rintro _ s ⟨w, order, sound⟩
  apply (sound.ensures_exit state).mono
  rintro r s' ⟨w', order', sound', _, detail, o, b, m, exited⟩
  have owner := exited.owner
  obtain ⟨pr, process, _⟩ := processOf_of_detail exited.known
  have memory := sound.accounts.memoryOf_ready exited.known exited.ready
  refine ⟨o, pr, process, fun p role o' owner' other => exited.block_iff sound sound' detail owner' other,
    ?_⟩
  have leaks := sound.accounts.leaks_iff owner exited.ready
  have swept : (∀ p block, s'.kernel.blocks p = some block → block.owner ≠ o) ↔
      ∀ role, role.leaked = true → (w o).block role = none := by
    constructor
    · intro gone role leaked
      cases held : (w o).block role with
      | none => rfl
      | some pair =>
        have left := exited.left role
        rw [if_pos leaked, held] at left
        exact absurd rfl (gone _ _ (sound'.accounts.live owner left))
    · rintro none p ⟨body, role, _⟩ live rfl
      have left := exited.left role
      rw [(sound'.accounts.owned _ owner role p body).mpr live] at left
      split at left
      · next leaked =>
        rw [none role leaked] at left
        cases left
      · cases left
  rw [swept, leaks]
  unfold CodeInOne
  constructor
  · intro code m' t role o' found
    rw [memory, Option.some.injEq] at found
    subst found
    exact code t role o'
  · intro code t role o' live
    exact code m t role o' memory live

section Leaking

/-- The small machine with a heap that never outgrows the shared table. -/
def narrowMachine : Machine := smallMachine 0xC0400000 (by decide)

theorem narrow_short : narrowMachine.Short := SmallMachine.short

theorem narrow_limit : narrowMachine.limit ≤ 0xC0400000 := Nat.le_refl _

/-- A process of two code pages, and few others, is loaded there and runs. -/
theorem parent_runs : ∃ (calls : List Call) (returns : List (Option Resumed))
    (s : System narrowMachine) (w : Estates) (q o : Nat) (b : Process) (m : ProcessMemory),
    run calls (boot narrowMachine) = .ok (returns, s) ∧ Sound s w [q] ∧ s.kernel.current = q ∧
      s.kernel.detail q = some (o, b) ∧ (w o).Ready b.processMemory m ∧ (w o).Has 0 1 ∧
      (w o).slotsFrom m 0 ≤ 24 ∧ Funded (narrowMachine.Room SmallMachine.Ready 52 100) s.kernel := by
  have arguments : Arguments := ⟨0, [], 0, 0, by decide⟩
  have before : Process := ⟨⟨⟨0, 0, 0, 0, 0, 0, 0⟩, ⟨0, 0, 0, 0, 0⟩⟩, 0, false, 0, 0, 0⟩
  have pages : SmallMachine.firstModule.numCodePages = 2 := by decide
  have owner : (boot narrowMachine).kernel.owners ≠ 0 := by decide
  have room : Funded (narrowMachine.Room SmallMachine.Ready 52
      (100 + 12 + (34 + 2 * SmallMachine.firstModule.numCodePages))) (boot narrowMachine).kernel :=
    SmallMachine.boot_funded _ (by decide) (by decide)
  have funded := room.spend (SmallMachine.ample.load _ (SmallMachine.ample.add (le_refl _)))
  obtain ⟨p, m₁, s₁, w₁, step₁, sound₁, still₁, funded₁, _, spaces₁, held₁, listed₁, has₁⟩ :=
    boot_sound.loadModule_returns narrow_short (i := 0) rfl (by simp [boot]) funded
  obtain ⟨s₂, w₂, q, b, m, step₂, _, sound₂, current₂, detail₂, funded₂, _, _, held₂, argued, _⟩ :=
    sound₁.addProcess_returns narrow_short owner (by rw [spaces₁]; exact List.mem_cons_self) held₁
      funded₁ arguments before
  have idle : s₂.kernel.current = 0 := by
    rw [current₂, still₁.current]
    rfl
  have known₂ : s₂.kernel.detail q = some ((boot narrowMachine).kernel.owners, b) := by
    rw [detail₂, Function.update_self]
  obtain ⟨s₃, w₃, r₃, step₃, sound₃, current₃, detail₃, blocks₃, funded₃, _⟩ :=
    sound₂.runProcess_returns narrow_short idle known₂ funded₂ fun heap _ room =>
      Nat.le_trans (Nat.le_of_add_right_le room.2.1) narrow_limit
  have known₃ : s₃.kernel.detail q = some ((boot narrowMachine).kernel.owners, b) := by
    rw [detail₃, known₂]
  have same := blocks₃ _ owner
  obtain ⟨m', ready⟩ := sound₃.processes _ _ _ known₃
  have memory := ready.laid.memory
  rw [same, held₂, Option.some.injEq, Prod.mk.injEq, Body.memory.injEq] at memory
  obtain ⟨_, rfl⟩ := memory
  -- slots 0, 767 and 1022 are the module's, slot 1 holds the arguments
  have listed : ∀ i, m.pageTables i ≠ 0 → i ∈ ({0, 1, 767, 1022} : Finset Nat) := by
    intro i full
    simp only [Finset.mem_insert, Finset.mem_singleton]
    by_cases arguments : i = 1
    · exact Or.inr (Or.inl arguments)
    · rw [argued.tables i arguments] at full
      have := listed₁ i full
      omega
  have has : ∀ i j, i ≠ 1 → ((w₃ (boot narrowMachine).kernel.owners).Has i j ↔
      i = 0 ∧ j < 2 ∨ (i = 767 ∨ i = 1022) ∧ j = 1023) := by
    intro i j other
    rw [pages] at has₁
    rw [← has₁ i j]
    unfold Estate.Has
    rw [same, argued.blocks (.table i) (fun slot => other (Option.some.inj slot)) nofun nofun]
  have few : ∀ i j, (w₃ (boot narrowMachine).kernel.owners).Has i j →
      j ∈ ({0, 1, 1023} : Finset Nat) := by
    intro i j there
    simp only [Finset.mem_insert, Finset.mem_singleton]
    by_cases arguments : i = 1
    · subst arguments
      refine Or.inl (argued.page j ?_)
      unfold Estate.Has at there ⊢
      rwa [same] at there
    · have := (has i j arguments).mp there
      omega
  have begun : run [] (boot narrowMachine) = .ok ([], boot narrowMachine) := rfl
  exact ⟨_, _, s₃, w₃, q, _, b, m, run_snoc (run_snoc (run_snoc begun step₁) step₂) step₃, sound₃,
    current₃, known₃, ready, (has 0 1 (by decide)).mpr (Or.inl ⟨rfl, by decide⟩),
    Estate.slotsFrom_le listed few, funded₃⟩

/-- The second page of a process that forks is a block of the child's. -/
theorem Forked.second_page {M : Machine} {s s' : System M} {w w' : Estates} {order : List Nat}
    {state : ProcessState} {o p : Nat} {b : Process} {m m' : ProcessMemory} (sound : Sound s w order)
    (forked : Forked s s' w w' state o b m m' p) (has : (w o).Has 0 1) :
    ∃ q, (w' s.kernel.owners).block (.page 0 1) = some (q, .pages 1) := by
  obtain ⟨q, t, table, listed⟩ := has
  rcases forked.cloned.copied 0 (by decide) with ⟨zero, _⟩ | ⟨t', table', _, _, _, pages⟩
  · rcases forked.ready.laid.slotReady 0 (by decide) with ⟨_, vacant, _⟩ | ⟨_, ⟨t', ready⟩, _⟩
    · rw [vacant (.table 0) rfl] at table
      cases table
    · exact absurd zero (sound.accounts.fits forked.owner ready.table).2
  · rw [table, Option.some.injEq, Prod.mk.injEq, Body.table.injEq] at table'
    obtain ⟨_, rfl⟩ := table'
    rcases pages 1 (by decide) with ⟨absent, _⟩ | ⟨_, _, _, q, _, _, held, _⟩
    · exact absurd absent listed
    · exact ⟨q, held⟩

/-- A process of two code pages is loaded and forks; when the child exits, its second page stays
allocated. -/
theorem exit_leaks : ∃ (M : Machine) (calls : List Call) (state : ProcessState)
    (returns : List (Option Resumed)) (r : Option Resumed) (s s' : System M),
    run calls (boot M) = .ok (returns, s) ∧ step (.handleExit state) s = .ok (r, s') ∧
      ∃ o pr p block, s.kernel.processOf s.kernel.current = some (o, pr) ∧
        s'.kernel.blocks p = some block ∧ block.owner = o := by
  have state : ProcessState := ⟨⟨0, 0, 0, 0, 0, 0, 0⟩, ⟨0, 0, 0, 0, 0⟩⟩
  have before : Process := ⟨state, 0, false, 0, 0, 0⟩
  obtain ⟨calls, returns, s, w, q, o, b, m, ran, sound, rfl, known, ready, has, cost, funded⟩ :=
    parent_runs
  have running := sound.accounts.detail_ne_zero known
  replace funded := funded.spend (le_trans (Machine.room_fewer (by omega))
    (SmallMachine.ample.fork (P := w o) (m := m) (n := 0) (le_refl _)))
  -- it forks
  obtain ⟨r₁, s₁, step₁, funded₁⟩ := sound.fork_returns narrow_short known ready funded state before
  obtain ⟨w₁, _, sound₁, ⟨_, _, _, joins⟩, o₁, b₁, m₁, m', p, forked⟩ :=
    (sound.ensures_fork state before).result step₁
  obtain ⟨c, absent, rfl, _⟩ := joins.ring
  have parent := forked.parent
  rw [known, Option.some.injEq, Prod.mk.injEq] at parent
  obtain ⟨rfl, rfl⟩ := parent
  have other : c ≠ s.kernel.current := by
    rintro rfl
    exact absent (List.mem_singleton_self _)
  have child := forked.child
  have last := sound₁.linked.last_concat
  rw [last] at child
  -- the child runs
  have current₁ : s₁.kernel.current = s.kernel.current := joins.current
  obtain ⟨r₂, s₂, w₂, step₂, sound₂, current₂, detail₂, funded₂, blocks₂⟩ :=
    sound₁.yield_funded narrow_short (by rw [current₁]; exact running) funded₁ narrow_limit state
  have onward : s₁.kernel.nextOf s₁.kernel.current = c := by
    rw [current₁]
    have ring : LinkedRing s₁.kernel.nextOf s₁.kernel.prevOf ([] ++ s.kernel.current :: [c]) :=
      sound₁.linked.ring
    exact (Option.some.inj ring.next_head).symm
  rw [onward] at current₂
  have known₂ := (detail₂ c (by rw [current₁]; exact other)).trans child
  rw [← current₂] at known₂
  -- it exits
  obtain ⟨r₃, s₃, step₃⟩ := sound₂.exit_returns narrow_short (sound₂.accounts.detail_ne_zero known₂)
    (p := s.kernel.current) (by simp) (by rw [current₂]; exact other.symm) funded₂ narrow_limit state
  obtain ⟨w₃, _, sound₃, _, _, o₃, b₃, m₃, exited⟩ := (sound₂.ensures_exit state).result step₃
  have leaver := exited.known
  rw [known₂, Option.some.injEq, Prod.mk.injEq] at leaver
  obtain ⟨rfl, _⟩ := leaver
  obtain ⟨page, held⟩ := forked.second_page sound has
  have held₂ := (blocks₂ _ (.page 0 1) exited.owner nofun).trans held
  have held₃ := exited.left (.page 0 1)
  rw [if_pos (by decide), held₂] at held₃
  obtain ⟨pr, process, _⟩ := processOf_of_detail known₂
  exact ⟨narrowMachine, _, state, _, r₃, s₂, s₃, run_snoc (run_snoc ran step₁) step₂, step₃, _, pr,
    page, _, process, sound₃.accounts.live exited.owner held₃, rfl⟩

end Leaking

end System

end Snfos
