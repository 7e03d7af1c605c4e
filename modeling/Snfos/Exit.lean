import Snfos.AddProcess

set_option autoImplicit false

/- `handle_exit`: the process leaves the ring, and its blocks are freed in one sweep
over its shadow. -/
namespace Snfos

open ByteMemory

/-- The blocks that the sweep has freed when it comes to slot `i`. -/
def Role.before (i : Nat) : Role → Bool
  | .directory => true
  | .table i' => i' < i
  | .pageTable i' => i' < i
  -- the loop over the pages of slot 0 is left after the first
  | .page i' j => i' < i ∧ (i' = 0 → j = 0)
  | _ => false

/-- The first `n` pages of slot `i`. -/
def Role.firstPages (i n : Nat) : Role → Bool
  | .page i' j => i' = i ∧ j < n
  | _ => false

/-- The blocks that the sweep does not reach. -/
def Role.leaked : Role → Bool
  | .page i j => i = 0 ∧ j ≠ 0
  | _ => false

namespace Estate

/-- Some blocks are gone. -/
def without (E : Estate) (gone : Role → Bool) : Estate :=
  { E with block := fun role => if gone role = true then none else E.block role }

/-- What an exit leaves behind. -/
def leftover (E : Estate) : Estate := E.without fun role => !role.leaked

section Without

variable {E : Estate} {gone gone' : Role → Bool} {role : Role}

theorem without_block (here : gone role = false) : (E.without gone).block role = E.block role := by
  unfold without
  dsimp only
  rw [here, if_neg (by decide)]

@[simp] theorem without_frame : (E.without gone).frame = E.frame := rfl

@[simp] theorem without_bytes : (E.without gone).bytes = E.bytes := rfl

@[simp] theorem without_draft : (E.without gone).draft = E.draft := rfl

theorem without_congr (same : ∀ role, E.block role ≠ none → gone role = gone' role) :
    E.without gone = E.without gone' := by
  have blocks : (fun role => if gone role = true then none else E.block role) =
      fun role => if gone' role = true then none else E.block role := by
    funext role
    by_cases empty : E.block role = none
    · rw [empty, ite_self, ite_self]
    · rw [same role empty]
  unfold without
  rw [blocks]

theorem without_drop : (E.without gone).drop role =
    E.without fun role' => gone role' || decide (role' = role) := by
  have blocks : Function.update (E.without gone).block role none =
      fun role' => if (gone role' || decide (role' = role)) = true then none else E.block role' := by
    funext role'
    by_cases here : role' = role
    · rw [here, Function.update_self, decide_eq_true rfl, Bool.or_true, if_pos rfl]
    · rw [Function.update_of_ne here, decide_eq_false here, Bool.or_false]
      rfl
  unfold drop
  rw [blocks]
  rfl

theorem without_nothing : E.without (fun _ => false) = E := rfl

end Without

end Estate

namespace Kernel

variable {M : Machine}

section Sweeping

variable {covered enough : Prop} {k : Kernel M} {w : Estates} {o p i table : Nat}
  {E : Estate} {m : ProcessMemory} {t : ProcessPageTable} {gone : Role → Bool}

theorem held_without {role : Role} {body : Body} (kept : gone role = false)
    (held : E.block role = some (p, body)) :
    (Function.update w o (E.without gone) o).block role = some (p, body) := by
  rw [Function.update_self, Estate.without_block kept]
  exact held

/-- One page of the sweep: it is freed, or there is none. -/
theorem Accounts.ensures_freePage {α : Type} {j : Nat} {rest : Action M α} {Q : α → Kernel M → Prop}
    (accounts : Accounts covered enough M.nothing k (Function.update w o (E.without gone)))
    (owner : o ≠ 0) (ready : E.TableReady i table t) (inside : j < 1024) (first : i = 0 → j = 0)
    (kept : gone (.table i) = false ∧ gone (.page i j) = false)
    (next : ∀ k', Steady o k k' → Accounts covered enough M.nothing k' (Function.update w o
      (E.without fun role => gone role || decide (role = .page i j))) →
      Command.Ensures (Excused M covered enough) k' rest Q) :
    Command.Ensures (Excused M covered enough) k (do
      free (← pageOf table j)
      rest) Q := by
  have own : ∀ G, (Function.update w o G) o = G := fun G => Function.update_self ..
  refine Command.ensures_bind (accounts.ensures_pageOf (t := t) owner
    (held_without kept.1 ready.table) inside) ?_
  rintro _ k ⟨rfl, rfl⟩
  rcases ready.pages j inside with ⟨zero, absent, _⟩ | ⟨j', c, q, place, pointer, _⟩
  · rw [zero]
    apply Command.ensures_bind ensures_free_null
    rintro _ k rfl
    apply next k (.refl k)
    have same : E.without gone = E.without fun role => gone role || decide (role = .page i j) := by
      refine Estate.without_congr fun role held => ?_
      have other : role ≠ .page i j := by
        rintro rfl
        exact held absent
      rw [decide_eq_false other, Bool.or_false]
    rw [← same]
    exact accounts
  · -- a page of its own, or the first of the code's
    obtain ⟨count, held, within, single⟩ := place.block
    have index := place.index
    have start : c = 0 ∧ j' = j := by
      rcases single with one | ⟨zero, _⟩
      · omega
      · have := first zero
        omega
    obtain ⟨rfl, rfl⟩ := start
    rw [pointer, Nat.mul_zero, Nat.add_zero]
    apply Command.ensures_bind (accounts.ensures_discard owner (held_without kept.2 held) nofun)
    rintro _ k' ⟨accounts', steady⟩
    rw [own, Function.update_idem, Estate.without_drop] at accounts'
    exact next k' steady accounts'

/-- The loop over the pages of a slot, which is left after the first page of slot 0. -/
theorem Accounts.ensures_freePages
    (accounts : Accounts covered enough M.nothing k (Function.update w o (E.without gone)))
    (owner : o ≠ 0) (ready : E.TableReady i table t)
    (kept : gone (.table i) = false ∧ ∀ j, gone (.page i j) = false) :
    Command.Ensures (Excused M covered enough) k (freePages table i) fun _ k' => Steady o k k' ∧
      Accounts covered enough M.nothing k' (Function.update w o (E.without fun role =>
        gone role || Role.firstPages i (if i = 0 then 1 else 1024) role)) := by
  have size : maxPageTableEntries = 1024 := rfl
  have grow : ∀ j, (fun role => (gone role || Role.firstPages i j role) || decide (role = .page i j)) =
      fun role => gone role || Role.firstPages i (j + 1) role := by
    intro j
    funext role
    rw [Bool.or_assoc]
    congr 1
    cases role with
    | page i' j' =>
      rw [Bool.eq_iff_iff]
      simp only [Role.firstPages, Role.page.injEq, Bool.or_eq_true, decide_eq_true_eq]
      omega
    | _ => simp [Role.firstPages]
  unfold freePages
  generalize maxPageTableEntries = n at *
  refine Command.ensures_bind (Command.ensures_for_break
    (fun j k' => Steady o k k' ∧ (i = 0 → j = 0) ∧ Accounts covered enough M.nothing k'
      (Function.update w o (E.without fun role => gone role || Role.firstPages i j role)))
    (fun k' => i = 0 ∧ Steady o k k' ∧ Accounts covered enough M.nothing k'
      (Function.update w o (E.without fun role => gone role || Role.firstPages i 1 role))) ?_ ?_) ?_
  · refine ⟨.refl k, fun _ => rfl, ?_⟩
    have same : E.without gone = E.without fun role => gone role || Role.firstPages i 0 role := by
      refine Estate.without_congr fun role _ => ?_
      cases role <;> simp [Role.firstPages]
    rw [← same]
    exact accounts
  · rintro j k₁ inside ⟨steady₁, first, accounts₁⟩
    refine accounts₁.ensures_freePage owner ready (show j < 1024 by omega) first
      ⟨by simp [kept.1, Role.firstPages], by simp [kept.2, Role.firstPages]⟩ fun k₂ steady₂ accounts₂ => ?_
    rw [grow] at accounts₂
    split
    · next zero =>
      rw [first zero] at accounts₂
      exact Command.ensures_pure _ ⟨zero, steady₁.trans steady₂, accounts₂⟩
    · next other =>
      exact Command.ensures_pure _ ⟨steady₁.trans steady₂, fun zero => absurd zero other, accounts₂⟩
  · rintro _ k₁ (⟨steady₁, first, accounts₁⟩ | ⟨zero, steady₁, accounts₁⟩)
    · rw [if_neg (fun zero => by have := first zero; omega), ← size]
      exact Command.ensures_pure _ ⟨steady₁, accounts₁⟩
    · rw [if_pos zero]
      exact Command.ensures_pure _ ⟨steady₁, accounts₁⟩

attribute [local irreducible] freePages in
theorem Accounts.ensures_freeTable
    (accounts : Accounts covered enough M.nothing k (Function.update w o (E.without (Role.before i))))
    (owner : o ≠ 0) (laid : E.Laid none p m) (inside : i < 1024) :
    Command.Ensures (Excused M covered enough) k (freeTable p i) fun _ k' => Steady o k k' ∧
      Accounts covered enough M.nothing k' (Function.update w o (E.without (Role.before (i + 1)))) := by
  have own : ∀ G, (Function.update w o G) o = G := fun G => Function.update_self ..
  unfold freeTable
  refine Command.ensures_bind (accounts.ensures_tableOf (m := m) owner
    (held_without rfl laid.memory) inside) ?_
  rintro _ k ⟨rfl, rfl⟩
  rcases laid.slotReady i inside with ⟨zero, vacant, _⟩ | ⟨_, ⟨t, ready⟩, _⟩
  · have same : E.without (Role.before i) = E.without (Role.before (i + 1)) := by
      refine Estate.without_congr fun role held => ?_
      have other : role.slot ≠ some i := fun slot => held (vacant role slot)
      rw [Bool.eq_iff_iff]
      cases role <;> simp only [Role.before, Role.slot, ne_eq, Option.some.injEq, decide_eq_true_eq] at other ⊢ <;> omega
    rw [if_neg (not_not.mpr zero), ← same]
    exact Command.ensures_pure _ ⟨.refl k, accounts⟩
  rw [if_pos]
  swap
  · exact (accounts.fits owner (held_without (by simp [Role.before]) ready.table)).2
  refine Command.ensures_bind (accounts.ensures_pageTableOf owner
    (held_without (by simp [Role.before]) ready.table)) ?_
  rintro _ k ⟨rfl, rfl⟩
  refine Command.ensures_bind (accounts.ensures_discard owner
    (held_without (by simp [Role.before]) ready.pageTable) (by simp)) ?_
  rintro _ k₁ ⟨accounts₁, steady₁⟩
  rw [own, Function.update_idem, Estate.without_drop] at accounts₁
  refine Command.ensures_bind (accounts₁.ensures_freePages owner ready
    ⟨by simp [Role.before], fun j => by simp [Role.before]⟩) ?_
  rintro _ k₂ ⟨steady₂, accounts₂⟩
  refine (accounts₂.ensures_discard owner
    (held_without (by simp [Role.before, Role.firstPages]) ready.table) (by simp)).mono ?_
  rintro _ k₃ ⟨accounts₃, steady₃⟩
  rw [own, Function.update_idem, Estate.without_drop] at accounts₃
  refine ⟨(steady₁.trans steady₂).trans steady₃, ?_⟩
  have same : E.without (Role.before (i + 1)) = E.without fun role =>
      ((Role.before i role || decide (role = .pageTable i)) ||
        Role.firstPages i (if i = 0 then 1 else 1024) role) || decide (role = .table i) := by
    refine Estate.without_congr fun role held => ?_
    cases role with
    | page i' j =>
      -- pages past the end of the slot are none
      have low : i' = i → j < 1024 := by
        intro here
        by_contra past
        exact held (here ▸ ready.beyond j (by omega))
      rw [Bool.eq_iff_iff]
      simp only [Role.before, Role.firstPages, Bool.or_eq_true, decide_eq_true_eq, reduceCtorEq,
        or_false]
      by_cases first : i' = 0
      · simp only [first, true_imp_iff]
        split <;> omega
      · simp only [first, false_imp_iff, and_true]
        split <;> omega
    | table i' =>
      rw [Bool.eq_iff_iff]
      simp only [Role.before, Role.firstPages, Bool.or_eq_true, decide_eq_true_eq, reduceCtorEq,
        Bool.false_eq_true, or_false, Role.table.injEq]
      omega
    | pageTable i' =>
      rw [Bool.eq_iff_iff]
      simp only [Role.before, Role.firstPages, Bool.or_eq_true, decide_eq_true_eq, reduceCtorEq,
        Bool.false_eq_true, or_false, Role.pageTable.injEq]
      omega
    | _ => rfl
  rw [same]
  exact accounts₃

theorem Accounts.ensures_freeTables
    (accounts : Accounts covered enough M.nothing k (Function.update w o (E.without (Role.before 0))))
    (owner : o ≠ 0) (laid : E.Laid none p m) :
    Command.Ensures (Excused M covered enough) k (freeTables p) fun _ k' => Steady o k k' ∧
      Accounts covered enough M.nothing k' (Function.update w o (E.without (Role.before 1024))) := by
  have size : maxPageDirectoryEntries = 1024 := rfl
  unfold freeTables
  rw [← size]
  generalize maxPageDirectoryEntries = n at *
  refine Command.ensures_bind (Command.ensures_for (fun i k' => Steady o k k' ∧
    Accounts covered enough M.nothing k' (Function.update w o (E.without (Role.before i)))) ?_ ?_) ?_
  · exact ⟨.refl k, accounts⟩
  · rintro i k₁ inside ⟨steady₁, accounts₁⟩
    apply Command.ensures_bind (accounts₁.ensures_freeTable owner laid (by omega))
    rintro _ k₂ ⟨steady₂, accounts₂⟩
    exact Command.ensures_pure _ ⟨steady₁.trans steady₂, accounts₂⟩
  · rintro _ k₁ done
    exact Command.ensures_pure _ done

attribute [local irreducible] freeTables in
/-- The sweep leaves nothing but what it does not reach, and the process. -/
theorem Accounts.ensures_freeMemory (accounts : Accounts covered enough M.nothing k w) (owner : o ≠ 0)
    (ready : (w o).Ready p m) (away : (w o).frame .directory 0 ≠ k.cr3 / 4096) :
    Command.Ensures (Excused M covered enough) k (freeMemory p) fun _ k' => Steady o k k' ∧
      Accounts covered enough M.nothing k' (Function.update w o
        ((w o).without fun role => Role.before 1024 role || decide (role = .memory))) := by
  have own : ∀ G, (Function.update w o G) o = G := fun G => Function.update_self ..
  have laid := ready.laid
  unfold freeMemory
  apply Command.ensures_bind (accounts.ensures_pageDirectoryOf owner laid.memory)
  rintro _ k ⟨rfl, rfl⟩
  refine Command.ensures_bind (accounts.ensures_discard owner laid.directory fun _ => away) ?_
  rintro _ k₁ ⟨accounts₁, steady₁⟩
  have begun : (w o).drop .directory = (w o).without (Role.before 0) := by
    rw [← (w o).without_nothing, Estate.without_drop]
    refine Estate.without_congr fun role _ => ?_
    cases role <;> simp [Role.before]
  rw [begun] at accounts₁
  apply Command.ensures_bind (accounts₁.ensures_freeTables owner laid)
  rintro _ k₂ ⟨steady₂, accounts₂⟩
  apply (accounts₂.ensures_discard owner (held_without rfl laid.memory) nofun).mono
  rintro _ k₃ ⟨accounts₃, steady₃⟩
  rw [own, Function.update_idem, Estate.without_drop] at accounts₃
  exact ⟨(steady₁.trans steady₂).trans steady₃, accounts₃⟩

/-- With its process structure gone too, an owner is left with what the sweep missed. -/
theorem Estate.leftover_eq {E : Estate} (ready : E.Ready p m) :
    (E.without fun role => Role.before 1024 role || decide (role = .memory)).drop .process =
      E.leftover := by
  rw [Estate.without_drop]
  refine Estate.without_congr fun role held => ?_
  have low : ∀ i, role.slot = some i → i < 1024 := by
    intro i slot
    by_contra past
    exact held (ready.laid.beyond i (by omega) role slot)
  cases role with
  | process => rfl
  | memory => rfl
  | directory => rfl
  | table i => simp [Role.before, Role.leaked, low i rfl]
  | pageTable i => simp [Role.before, Role.leaked, low i rfl]
  | page i j => simp [Role.before, Role.leaked, low i rfl]
  | temp => exact absurd ready.temp held
  | raw => exact absurd ready.raw held

end Sweeping

section Exiting

variable {covered enough : Prop} {k : Kernel M} {w : Estates} {o o' : Nat}
  {l₁ l₂ : List Nat} {b b' : Process} {m m' : ProcessMemory}

/-- In a circle with others the current process is not both ends. -/
theorem Linked.not_alone (linked : Linked k (l₁ ++ k.current :: l₂)) (more : l₁ ++ l₂ ≠ []) :
    ¬ (k.current = k.first ∧ k.current = k.last) := by
  rintro ⟨first, last⟩
  have nodup := linked.ring.nodup
  cases l₁ with
  | cons a l₁ =>
    have start := linked.first
    rw [← first, List.cons_append, List.head?_cons, Option.getD_some] at start
    rw [start, List.cons_append, List.nodup_cons] at nodup
    exact nodup.1 (by simp)
  | nil =>
    have finish := linked.last
    rw [List.nil_append] at finish nodup
    rcases List.eq_nil_or_concat l₂ with rfl | ⟨l, c, rfl⟩
    · exact more rfl
    · rw [← last, List.concat_eq_append, ← List.cons_append, List.getLast?_concat,
        Option.getD_some] at finish
      rw [finish, List.nodup_cons] at nodup
      exact nodup.1 (by simp)

/-- The current process leaves the ring before anything else happens. -/
theorem unlink_first {α : Type} (rest : Action M α) :
    (do
      moveFirst
      moveLast
      bridgeCurrent
      rest) = ((do
      moveFirst
      moveLast
      bridgeCurrent) >>= fun _ => rest : Action M α) := by
  simp only [bind_assoc]

theorem Accounts.ensures_handleExit {s : ProcessState} (accounts : Accounts covered enough M.nothing k w)
    (linked : Linked k (l₁ ++ k.current :: l₂)) (more : l₁ ++ l₂ ≠ [])
    (known : k.detail k.current = some (o, b)) (ready : (w o).Ready b.processMemory m)
    (known' : k.detail (k.nextOf k.current) = some (o', b')) (ready' : (w o').Ready b'.processMemory m')
    (window : covered → M.limit ≤ 0xC0400000) :
    Command.Ensures (Excused M covered enough) k (handleExit s) fun r k' => r = b'.processState ∧
      (∃ w₁, Beside w w₁ ∧ Accounts covered enough M.nothing k'
        (Function.update w₁ o (w₁ o).leftover)) ∧ k'.current = k.nextOf k.current ∧
      k'.cr3 / 4096 = (w o').frame .directory 0 ∧ k'.pidInc = k.pidInc ∧ k'.owners = k.owners ∧
      (∀ f i, k.uses f = some (.module i) → k'.uses f = some (.module i)) ∧
      Linked k' (l₁ ++ l₂) ∧ k'.detail = Function.update k.detail k.current none := by
  have own : ∀ (w : Estates) G, (Function.update w o G) o = G := fun _ G => Function.update_self ..
  have nextMem := (linked.ring.next_mem (show k.current ∈ l₁ ++ k.current :: l₂ by simp)).1
  have absent : k.current ∉ l₁ ++ l₂ := by
    have nodup := linked.ring.nodup
    rw [List.nodup_middle] at nodup
    exact (List.nodup_cons.mp nodup).1
  unfold handleExit
  apply Command.ensures_get_bind
  rw [if_neg (linked.not_alone more)]
  rw [unlink_first]
  apply Command.ensures_bind (accounts.ensures_unlink linked more)
  rintro _ k₁ ⟨⟨w₁, accounts₁, beside⟩, kept, pid, ring, first, last, onward, detail₁⟩
  rw [← detail₁] at known known'
  have ready₁ := ready.beside beside
  have ready₁' := ready'.beside beside
  rw [← beside.frame]
  have elsewhere : k.nextOf k.current ≠ k.current := linked.ring.next_ne more
  have nextIn : k.nextOf k.current ∈ l₁ ++ l₂ := by
    have member := nextMem
    rw [List.mem_append, List.mem_cons] at member
    rw [List.mem_append]
    rcases member with left | same | right
    · exact Or.inl left
    · exact absurd same elsewhere
    · exact Or.inr right
  have live := linked.live
  generalize k.current = c at *
  generalize k.nextOf c = next at *
  obtain ⟨pr, found, bare, _⟩ := processOf_of_detail known
  obtain ⟨owner, held⟩ := accounts₁.processOf_iff.mp found
  obtain ⟨pr', found', _⟩ := processOf_of_detail known'
  obtain ⟨owner', held'⟩ := accounts₁.processOf_iff.mp found'
  have apart : o' ≠ o := by
    intro same
    rw [same, held] at held'
    exact elsewhere (Prod.mk.inj (Option.some.inj held')).1.symm
  apply Command.ensures_bind (accounts₁.ensures_nextField known)
  rintro _ k₁ ⟨rfl, rfl⟩
  rw [onward]
  refine Command.ensures_bind (accounts₁.ensures_loadSpace known' ready₁' fun so =>
    Nat.le_trans accounts₁.bounded (window so)) ?_
  rintro _ k₂ ⟨x, shape, address, accounts₂⟩
  have known₂ : k₂.detail c = some (o, b) := by
    rw [shape]
    exact known
  apply Command.ensures_bind (accounts₂.ensures_readProcess known₂ (by decide))
  rintro pr₂ k₂ ⟨rfl, rfl, _⟩
  have away : (w₁ o).frame .directory 0 ≠ k₂.cr3 / 4096 := by
    intro same
    rw [shape] at same
    have both := accounts₁.frame_injective owner owner' ready₁.laid.directory (Nat.succ_pos 0)
      ready₁'.laid.directory (Nat.succ_pos 0) (same.trans address)
    exact apart both.1.symm
  apply Command.ensures_bind (accounts₂.ensures_freeMemory owner ready₁ away)
  rintro _ k₃ ⟨steady₃, accounts₃⟩
  have process₃ : (Function.update w₁ o ((w₁ o).without fun role =>
      Role.before 1024 role || decide (role = .memory)) o).block .process = some (c, .process pr) :=
    held_without rfl held
  apply Command.ensures_bind (accounts₃.ensures_discard owner process₃ nofun)
  rintro _ k₄ ⟨accounts₄, steady₄⟩
  rw [own, Function.update_idem, Estate.leftover_eq ready₁] at accounts₄
  have processes₄ : k₄.processOf = Function.update k₂.processOf c none :=
    accounts₂.processOf_update (x := none) accounts₄ owner rfl (fun q body other => by
      rw [held] at other
      exact (Prod.mk.inj (Option.some.inj other)).1.symm) fun _ => ⟨_, held⟩
  have processes₂ : k₂.processOf = k₁.processOf := by
    rw [shape]
    rfl
  rw [processes₂] at processes₄
  have detail₄ : k₄.detail = Function.update k.detail c none := by
    rw [detail_update processes₄, detail₁]
    rfl
  have next₄ := nextOf_update processes₄
  have prev₄ := prevOf_update processes₄
  have known₄ : k₄.detail next = some (o', b') := by
    rw [detail₄, Function.update_of_ne elsewhere, ← detail₁]
    exact known'
  have ready₄ : (Function.update w₁ o (w₁ o).leftover o').Ready b'.processMemory m' := by
    rw [Function.update_of_ne apart]
    exact ready₁'
  refine (accounts₄.ensures_runProcess known₄ ready₄ fun so =>
    Nat.le_trans accounts₄.bounded (window so)).mono ?_
  rintro r _ ⟨rfl, y, rfl, address', accounts₅⟩
  rw [Function.update_of_ne apart] at address'
  have steady := steady₃.trans steady₄
  have calm := steady.calm
  rw [shape] at calm
  refine ⟨rfl, ⟨w₁, beside, accounts₅⟩, rfl, address', calm.pidInc.trans pid,
    calm.owners.trans kept.owners, fun f i use => ?_, ⟨?_, fun q => ?_, ?_, ?_, Or.inr nextIn⟩, detail₄⟩
  · apply steady.modules f i
    rw [shape]
    exact kept.modules f i use
  · refine ring.congr fun q member => ?_
    have other : q ≠ c := fun same => absent (same ▸ member)
    show k₄.nextOf q = k₁.nextOf q ∧ k₄.prevOf q = k₁.prevOf q
    rw [next₄, prev₄, Function.update_of_ne other, Function.update_of_ne other]
    exact ⟨rfl, rfl⟩
  · show q ∈ l₁ ++ l₂ ↔ (k₄.detail q).isSome
    rw [detail₄]
    by_cases here : q = c
    · rw [here, Function.update_self]
      exact ⟨fun member => absurd member absent, nofun⟩
    · rw [Function.update_of_ne here, ← live q]
      simp [here]
  · exact calm.first.trans first
  · exact calm.last.trans last

end Exiting

end Kernel

end Snfos
