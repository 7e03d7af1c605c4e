import Snfos.FrameTally
import Snfos.Refinement

set_option autoImplicit false

/- Every marked frame is accounted for: it is memory reserved at boot, a page of the heap, a page
table, or of a module that is still to be loaded. -/
namespace Snfos

open ByteMemory Command

namespace Kernel

variable {M : Machine}

section Loading

variable {gone : Nat → Prop} {top v g i : Nat} {k : Kernel M}

/-- What `load_module` does to a page of `temp_pages`. -/
theorem Paging.ensures_movePage_shape (paging : Paging False False 0 top k)
    (page : HeapPage M top v) (mapped : Mapped k v) :
    Ensures (fun _ => True) k (movePage (4096 * v) (4096 * g)) fun _ k' =>
      ∃ t, k' = entered (Kernel.released k (k.home v)) t v g := by
  obtain ⟨lower, upper⟩ := page.bounds paging.upper
  have whole : 4096 * v / 4096 = v := Nat.mul_div_cancel_left v (by decide)
  obtain ⟨t, leads, _⟩ := (paging.mapped_iff page).mp mapped
  unfold movePage
  refine ensures_bind ((paging.ensures_getPhysicalAddress (by rwa [whole])).excuse fun _ _ => trivial) ?_
  rintro physical k ⟨rfl, so, _⟩
  rw [whole] at so
  rw [so mapped, Nat.mul_mod_right, Nat.add_zero]
  refine ensures_bind (ensures_freePhysicalPage (Q := fun _ k₂ => k₂ = Kernel.released k (k.home v))
    (k.home v) rfl) ?_
  rintro _ _ rfl
  have self : entry (Kernel.released k (k.home v)).ram ((Kernel.released k (k.home v)).cr3 / 4096) 1023 =
      4096 * ((Kernel.released k (k.home v)).cr3 / 4096) + 3 := paging.current.self
  have leads' : entry (Kernel.released k (k.home v)).ram ((Kernel.released k (k.home v)).cr3 / 4096)
      (v / 1024) = 4096 * t + 3 := leads
  unfold mapPage
  simp only [whole, Nat.mul_div_cancel_left g (by decide : 0 < 4096)]
  apply ensures_bind (ensures_installTable_present self (by omega) leads')
  rintro _ _ rfl
  exact ensures_enter self (by omega) leads' ⟨t, rfl⟩

/-- A page of the heap goes over to a module's frame, and its own is free again. -/
theorem Tallied.move {held : List Nat} (tallied : Tallied gone held top k) (page : HeapPage M top v)
    (home : k.uses (k.home v) = some (.heap v)) (bound : k.home v < 2 ^ 20)
    (use : k.uses g = some (.module i)) (t : Nat) :
    Tallied gone held top (entered (Kernel.released k (k.home v)) t v g) := by
  have apart : g ≠ k.home v := frame_ne use home (by simp)
  have free : ¬ M.Fixed g := by
    intro fixed
    have serves := (tallied.serves g _ use).1
    rw [fixed.2] at serves
    cases serves
  have new : g ∉ held := by
    intro member
    have idle := (tallied.idle g member).2
    rw [use] at idle
    cases idle
  have uses : ∀ f, (Kernel.released k (k.home v)).uses f =
      if f = k.home v then none else k.uses f := by
    intro f
    unfold Kernel.released
    dsimp only
    by_cases here : f = k.home v
    · rw [here, Function.update_self, if_pos rfl]
    · rw [Function.update_of_ne here, if_neg here]
  have released := tallied.release home bound
  refine released.enter page (Nat.le_refl _) (fun f use' => ?_) free
    ((released.marked g).mpr (Or.inr (Or.inl ?_))) (fun f => ?_) tallied.once rfl rfl rfl
  · rw [uses] at use'
    split at use'
    · cases use'
    · next other => exact other (tallied.serves f _ use').2.1.symm
  · rw [uses, if_neg apart, use]
    simp
  · constructor
    · intro member
      refine ⟨member, ?_⟩
      rintro rfl
      exact new member
    · exact And.left

/-- `temp_pages` goes over to the module's frames: none of them is only the module's after that. -/
theorem Tallied.ensures_mapModule {module : Module} {temp : Nat}
    (tallied : Tallied gone [] top k) (paging : Paging False False 0 top k)
    (aligned : temp % 4096 = 0)
    (pages : ∀ c, c < module.numCodePages → HeapPage M top (temp / 4096 + c))
    (fresh : ∀ c, c < module.numCodePages → Mapped k (temp / 4096 + c) ∧
      k.mapper (temp / 4096 + c) = k.cr3 / 4096)
    (away : ∀ c, c < module.numCodePages → k.uses (k.cr3 / 4096) ≠ some (.heap (temp / 4096 + c)))
    (uses : ∀ f, module.Covers f → k.uses f = some (.module i))
    (only : ∀ f, M.moduleOf f = some i → module.Covers f) :
    Ensures (fun _ => True) k (mapModule module temp) fun _ k' =>
      Tallied (fun j => gone j ∨ j = i) [] top k' := by
  have start := module.aligned
  unfold mapModule
  -- after page `c` the first `c` frames of the module serve for pages
  refine ensures_bind (ensures_for (fun c k' => Tallied gone [] top k' ∧ Paging False False 0 top k' ∧
    (∀ c', c' < module.numCodePages → Mapped k' (temp / 4096 + c') ∧
      k'.mapper (temp / 4096 + c') = k'.cr3 / 4096 ∧
      k'.uses (k'.cr3 / 4096) ≠ some (.heap (temp / 4096 + c'))) ∧
    ∀ f j, k'.uses f = some (.module j) ↔ k.uses f = some (.module j) ∧
      ¬ (module.modStart / 4096 ≤ f ∧ f < module.modStart / 4096 + c)) ?_ ?_) ?_
  · refine ⟨tallied, paging, fun c inside => ⟨(fresh c inside).1, (fresh c inside).2, away c inside⟩, ?_⟩
    intro f j
    constructor
    · exact fun use => ⟨use, by omega⟩
    · exact And.left
  · rintro c k₁ inside ⟨tallied₁, paging₁, reaches, left⟩
    have target : temp + 4096 * c = 4096 * (temp / 4096 + c) := by omega
    have source : module.modStart + 4096 * c = 4096 * (module.modStart / 4096 + c) := by omega
    generalize here : temp / 4096 + c = v at target
    generalize there : module.modStart / 4096 + c = g at source
    have page : HeapPage M top v := here ▸ pages c inside
    obtain ⟨mapped, mapper, away₁⟩ := reaches c inside
    rw [here] at mapped mapper away₁
    have use : k₁.uses g = some (.module i) :=
      (left g i).mpr ⟨uses g ⟨by omega, by omega⟩, by omega⟩
    have homeUse := paging₁.homes v page
    rw [target, source]
    have moves := paging₁.ensures_mapModulePage page mapped mapper away₁ use
    refine ensures_bind ((moves.and (paging₁.ensures_movePage_shape page mapped)).excuse
      fun _ _ => trivial) ?_
    rintro _ k₂ ⟨⟨paging₂, maps, _, mapper₂, _⟩, t, rfl⟩
    have served : ∀ f, (entered (Kernel.released k₁ (k₁.home v)) t v g).uses f =
        if f = g then some (.heap v) else if f = k₁.home v then none else k₁.uses f := by
      intro f
      rw [uses_entered]
      unfold Kernel.released
      dsimp only
      by_cases home : f = k₁.home v
      · rw [home, Function.update_self, if_pos rfl]
      · rw [Function.update_of_ne home, if_neg home]
    refine ensures_pure _ ⟨tallied₁.move page homeUse (paging₁.used _ _ homeUse).1 use t, paging₂,
      fun c' inside' => ⟨?_, ?_, ?_⟩, fun f j => ?_⟩
    · exact maps.mapped _ (pages c' inside') (reaches c' inside').1
    · by_cases same : temp / 4096 + c' = v
      · rw [same]
        exact mapper₂
      · rw [(maps.homes _ (pages c' inside') same).2, maps.cr3]
        exact (reaches c' inside').2.1
    · rw [served, maps.cr3]
      split
      · next moved =>
        rw [← moved] at use
        exact absurd paging₁.current.place (by simp [use])
      · split
        · exact nofun
        · exact (reaches c' inside').2.2
    · rw [served]
      by_cases isModule : f = g
      · rw [if_pos isModule]
        simp only [Option.some.injEq, reduceCtorEq, false_iff, not_and]
        intro _
        omega
      · rw [if_neg isModule]
        by_cases isHome : f = k₁.home v
        · rw [if_pos isHome]
          have other := left f j
          rw [isHome, homeUse] at other
          simp only [Option.some.injEq, reduceCtorEq, false_iff, not_and] at other ⊢
          intro use'
          rw [isHome] at use'
          have before := other use'
          omega
        · rw [if_neg isHome, left f j]
          exact and_congr_right fun _ => not_congr (by omega)
  · rintro _ k' ⟨tallied', _, _, left⟩
    refine ensures_pure _ (tallied'.retire fun f use => ?_)
    have serves := (tallied'.serves f _ use).1
    obtain ⟨_, outside⟩ := (left f i).mp use
    exact outside (only f serves)

section Module

variable {spare : M.Budget} {o p : Nat} {w : Estates} {E : Estate} {module : Module}

/-- The directory in use is no page of a block that is none. -/
theorem Accounts.directory_apart {role : Role} {count : Nat}
    (accounts : Accounts False False spare k w) (owner : o ≠ 0)
    (held : (w o).block role = some (p, .pages count)) (other : role ≠ .directory) {c : Nat}
    (inside : c < count) : k.uses (k.cr3 / 4096) ≠ some (.heap (p / 4096 + c)) := by
  intro use
  obtain ⟨_, _, home, _⟩ := accounts.page owner held inside
  rcases accounts.running with boot | ⟨o', owner', _, ⟨p', body', held'⟩, current⟩
  · rw [boot, accounts.paging.bootPageDirectory] at use
    cases use
  · obtain rfl := accounts.directory_pages owner' held'
    obtain ⟨_, _, home', use'⟩ := accounts.page owner' held' (Nat.succ_pos 0)
    rw [current, use, Option.some.injEq, Use.heap.injEq] at use'
    rw [← use', home] at home'
    have apart := accounts.frame_injective owner' owner held' (Nat.succ_pos 0) held inside home'.symm
    exact other apart.2.1.symm

theorem Accounts.ensures_loadCode_counted {table pageTable : Nat}
    (accounts : Accounts False False spare k (Function.update w o E)) (owner : o ≠ 0)
    (drawn : o < k.owners) (temp : E.block .temp = none)
    (uses : ∀ f, module.Covers f → k.uses f = some (.module i))
    (only : ∀ f, M.moduleOf f = some i → module.Covers f) (counted : Counted gone k) :
    Ensures (fun _ => True) k (loadCode module table pageTable o) fun _ k' =>
      Counted (fun j => gone j ∨ j = i) k' := by
  by_cases empty : module.numCodePages = 0
  · apply ((ensures_loadCode_empty accounts empty).excuse fun _ _ => trivial).mono
    rintro _ k rfl
    refine ⟨counted.heap, counted.tally.retire fun f use => ?_⟩
    have covers := only f (counted.tally.serves f _ use).1
    have upper := covers.2
    have lower := covers.1
    omega
  have positive : 0 < module.numCodePages := by omega
  have pages : Accounts False False (M.codeAsks M.nothing module) k (Function.update w o E) :=
    accounts.unbounded _
  unfold loadCode
  have allocates : Ensures (Excused M False False) k (mallocPages module.numCodePages .temp o) _ :=
    pages.ensures_mallocPages drawn (fun zero => absurd zero owner)
      (fun _ => by rw [Function.update_self, temp]) positive nofun
  have both := allocates.and (ledger_counted.mallocPages module.numCodePages .temp o k counted)
  refine ensures_bind (both.excuse fun _ _ => trivial) ?_
  rintro tempPages k₁ ⟨⟨_, aligned, ⟨frames₁, bytes₁, accounts₁⟩, steady₁, fresh⟩, counted₁⟩
  rw [Function.update_self, Function.update_idem] at accounts₁
  have held : (Function.update w o (E.place .temp tempPages module.numCodePages frames₁ bytes₁) o).block
      .temp = some (tempPages, .pages module.numCodePages) := by
    rw [Function.update_self, Estate.place_block, if_pos rfl]
  have moves := counted₁.tally.ensures_mapModule accounts₁.paging aligned
    (fun c inside => (accounts₁.page owner held inside).2.1) fresh
    (fun c inside => accounts₁.directory_apart owner held (by simp) inside)
    (fun f covers => steady₁.modules _ _ (uses f covers)) only
  have both := moves.and (keeps_mapModule_lists module tempPages k₁ ⟨rfl, rfl⟩)
  refine ensures_bind (both.excuse fun _ _ => trivial) ?_
  rintro _ k₂ ⟨tally₂, heap₂, blocks₂⟩
  have counted₂ : Counted (fun j => gone j ∨ j = i) k₂ := by
    have sizes₂ : k₂.sizes = k₁.sizes := by
      unfold sizes
      rw [blocks₂]
    have ends₂ : k₂.mappedEnd = k₁.mappedEnd := by
      unfold mappedEnd
      rw [heap₂]
    refine ⟨?_, ends₂ ▸ tally₂⟩
    rw [heap₂, sizes₂]
    exact counted₁.heap
  refine keeps_bind (ledger_counted.mallocPages _ _ _) ?_ k₂ counted₂
  intro programCode
  apply keeps_bind (ledger_counted.keeps_enterCode _)
  intro _
  exact keeps_bind (ledger_counted.keeps_copyBytes _) fun _ => books_counted.keeps_free

theorem Accounts.ensures_loadModule_counted (accounts : Accounts False False spare k w)
    (uses : ∀ f, module.Covers f → k.uses f = some (.module i))
    (only : ∀ f, M.moduleOf f = some i → module.Covers f) (counted : Counted gone k) :
    Ensures (fun _ => True) k (loadModule module) fun _ k' =>
      Counted (fun j => gone j ∨ j = i) k' := by
  have owner : k.owners ≠ 0 := Nat.ne_of_gt accounts.owners
  have own : ∀ G, (Function.update w k.owners G) k.owners = G := fun G => Function.update_self ..
  replace accounts : Accounts False False (M.loadAsks M.nothing module) k w := accounts.unbounded _
  unfold loadModule
  have draws : Ensures (Excused M False False) k newOwner _ := accounts.ensures_newOwner
  have both := draws.and (books_counted.keeps_newOwner k counted)
  refine ensures_bind (both.excuse fun _ _ => trivial) ?_
  rintro o k₁ ⟨⟨rfl, _, shape, accounts₁⟩, counted₁⟩
  have drawn : k.owners < k₁.owners := by
    rw [shape]
    exact Nat.lt_succ_self _
  have uses₁ : ∀ f, module.Covers f → k₁.uses f = some (.module i) := by
    rw [shape]
    exact uses
  clear shape
  have begins := (accounts₁.ensures_newSpace owner drawn (own _)).and (ledger_counted.keeps_newSpace k₁ counted₁)
  refine ensures_bind (begins.excuse fun _ _ => trivial) ?_
  rintro ⟨process, code, stack, kernelStack⟩ k₂
    ⟨⟨E, m, accounts₂, steady₂, laid, _, others, tables, _, stack', kernelStack'⟩, counted₂⟩
  dsimp only at laid tables stack' kernelStack' ⊢
  rw [Function.update_idem] at accounts₂
  have linked : m.pageTables 767 = stack.1 ∧ m.pageTables 1022 = kernelStack.1 := by
    rw [tables]
    simp
  have growStack := (accounts₂.ensures_growPage (j := 1023) owner
    (by rw [steady₂.calm.owners]; exact drawn) laid stack' linked.1 (by decide) (by decide) rfl rfl).and
    (ledger_counted.keeps_newPage 0x07 k₂ counted₂)
  refine ensures_bind (growStack.excuse fun _ _ => trivial) ?_
  rintro page₃ k₃ ⟨⟨_, steady₃, E₃, accounts₃, laid₃, _, _, _, ready₃, block₃⟩, counted₃⟩
  have steady := steady₂.trans steady₃
  have growKernelStack := (accounts₃.ensures_growPage (j := 1023) owner
    (by rw [steady.calm.owners]; exact drawn) laid₃ (ready₃ _ _ _ (by decide) kernelStack') linked.2
    (by decide) (by decide) rfl rfl).and (ledger_counted.keeps_newPage 0x03 k₃ counted₃)
  refine ensures_bind (growKernelStack.excuse fun _ _ => trivial) ?_
  rintro page₄ k₄ ⟨⟨_, steady₄, E₄, accounts₄, _, _, _, _, _, block₄⟩, counted₄⟩
  replace steady := steady.trans steady₄
  have temp : E₄.block .temp = none := by
    rw [block₄ _ (by simp [Role.slot]), block₃ _ (by simp [Role.slot]), others _ (by simp)]
  refine ensures_bind (accounts₄.ensures_loadCode_counted owner
    (by rw [steady.calm.owners]; exact drawn) temp
    (fun f covers => steady.modules _ _ (uses₁ f covers)) only counted₄) ?_
  exact fun _ k₅ counted₅ => ensures_pure _ counted₅

end Module

end Loading

end Kernel

namespace System

open Kernel

variable {M : Machine}

section Steps

variable {s : System M} {w : Estates} {order : List Nat}

/-- The tally between two calls. -/
def Counts (s : System M) : Prop := Counted (fun i => i ∈ s.loaded) s.kernel

theorem Sound.counts_step (sound : Sound s w order) (counts : Counts s) (call : Call) :
    Ensures (fun _ => True) s (System.step call) fun _ s' => Counts s' := by
  by_cases load : ∃ i, call = .loadModule i
  · obtain ⟨i, rfl⟩ := load
    show Ensures (fun _ => True) s (loadModule i) _
    unfold loadModule
    apply ensures_get_bind
    cases found : M.modules[i]? with
    | none => exact ensures_throw _ trivial
    | some module =>
      dsimp only
      refine ensures_ite (fun _ => ensures_throw _ trivial) fun new => ?_
      have loads := sound.accounts.ensures_loadModule_counted (sound.modules i module found new)
        (fun f => Machine.covers_of_moduleOf found) counts
      apply ensures_bind (ensures_lifted loads)
      rintro memory s' ⟨same, counted⟩
      refine ensures_modify_bind (ensures_pure _ ?_)
      have gone : (fun j => j ∈ i :: s'.loaded) = fun j => j ∈ s.loaded ∨ j = i := by
        funext j
        rw [same, List.mem_cons, or_comm]
      unfold Counts
      dsimp only
      rw [gone]
      exact counted
  · have keeps : Keeps (Kept fun loaded => Counted (M := M) (· ∈ loaded)) (System.step call) :=
      keeps_step (fun _ => ledger_counted) fun i same => load ⟨i, same⟩
    exact keeps s counts

end Steps

section Runs

/-- Frame 0 and the tables of the boot code are no module's. -/
theorem fixed_of_used {f : Nat} (used : (Frames.boot M.bitmap).used f = true)
    (outside : ∀ m ∈ M.modules, ¬ m.Covers f) : M.Fixed f := by
  refine ⟨used, ?_⟩
  cases found : M.moduleOf f with
  | none => rfl
  | some i =>
    obtain ⟨inside, _⟩ := List.findIdx?_eq_some_iff_getElem.mp found
    have known : M.modules[i]? = some M.modules[i] := List.getElem?_eq_getElem inside
    exact absurd (Machine.covers_of_moduleOf known found) (outside _ (List.getElem_mem inside))

theorem boot_counts : Counts (boot M) := by
  have serves : ∀ f u, M.bootUse f = some u →
      Serves (fun i => i ∈ (boot M).loaded) M.layout.heapStart (Kernel.boot M) f u := by
    intro f u use
    have used := (M.bootUse_used use).2
    unfold Machine.bootUse at use
    split at use
    · next low =>
      cases use
      exact fixed_of_used used fun m member => low ▸ (M.modules_outside m member).1
    split at use
    · next kernel =>
      cases use
      exact fixed_of_used used fun m member => kernel ▸ (M.modules_outside m member).2.1
    split at use
    · next directory =>
      cases use
      exact fixed_of_used used fun m member => directory ▸ (M.modules_outside m member).2.2
    · obtain ⟨i, found, rfl⟩ := Option.map_eq_some_iff.mp use
      exact ⟨found, List.not_mem_nil⟩
  refine ⟨M.allocator.boot_holds, ?_⟩
  show Tallied _ [] (Kernel.boot M).mappedEnd (Kernel.boot M)
  rw [boot_mappedEnd]
  refine ⟨fun f => ?_, serves, List.nodup_nil, fun f member => absurd member List.not_mem_nil⟩
  constructor
  · intro used
    cases found : M.moduleOf f with
    | none => exact Or.inl ⟨used, found⟩
    | some i =>
      refine Or.inr (Or.inl ?_)
      show M.bootUse f ≠ none
      unfold Machine.bootUse
      split
      · simp
      split
      · simp
      split
      · simp
      · simp [found]
  · rintro (fixed | use | member)
    · exact fixed.1
    · obtain ⟨u, use⟩ := Option.ne_none_iff_exists'.mp use
      exact (M.bootUse_used use).2
    · exact absurd member List.not_mem_nil

/-- What a load or a store does is nothing to the tally. -/
theorem ensures_act_counts {s : System M} {event : Event} (represents : ∃ A, Represents s A)
    (counts : Counts s) : Ensures (Stops M) s (act event) fun _ s' =>
      (∃ A, Represents s' A) ∧ Counts s' := by
  obtain ⟨A, represents⟩ := represents
  have follows := simulates s A event represents
  obtain ⟨_, w, order, sound, _⟩ := represents
  refine ((follows.and (?_ : Ensures (fun _ => True) s (act event) fun _ s' => Counts s')).excuse
    fun _ => And.left).mono fun _ _ both => ⟨both.1.imp fun _ => And.right, both.2⟩
  cases event with
  | call call =>
    apply ensures_get_bind
    apply ensures_bind (sound.counts_step counts call)
    exact fun _ s' counts' => ensures_pure _ counts'
  | load a =>
    refine ensures_bind (ensures_reach.excuse fun _ _ => trivial) ?_
    rintro place s ⟨rfl, _⟩
    exact ensures_get_bind (ensures_pure _ counts)
  | store a byte =>
    refine ensures_bind (ensures_reach.excuse fun _ _ => trivial) ?_
    rintro place s ⟨rfl, _⟩
    exact ensures_modify_bind (ensures_pure _ (counts.congr rfl rfl rfl rfl rfl))

end Runs

section Accounting

def isTable : Option Use → Bool
  | some (.pageTable _ _) => true
  | _ => false

/-- The pages that the heap has mapped. -/
def heapPages (s : System M) : Finset Nat :=
  Finset.Ico (M.layout.heapStart / 4096) (s.kernel.mappedEnd / 4096)

/-- The page tables that `map_page` has installed. -/
def tableFrames (s : System M) : Finset Nat :=
  (Finset.range (2 ^ 20)).filter fun f => isTable (s.kernel.uses f) = true

/-- The frames of the modules that were loaded. -/
def loadedFrames (s : System M) : Finset Nat :=
  (Finset.range (2 ^ 20)).filter fun f => ∃ i ∈ s.loaded, M.moduleOf f = some i

variable {s : System M} {w : Estates} {order : List Nat} {f : Nat}

theorem isTable_iff {u : Option Use} : isTable u = true ↔ ∃ d i, u = some (.pageTable d i) := by
  constructor
  · intro table
    cases u with
    | none => cases table
    | some u =>
      cases u with
      | pageTable d i => exact ⟨d, i, rfl⟩
      | _ => cases table
  · rintro ⟨d, i, rfl⟩
    rfl

theorem module_of_moduleOf {i : Nat} (found : M.moduleOf f = some i) :
    ∃ m, M.modules[i]? = some m ∧ m.Covers f := by
  obtain ⟨inside, _⟩ := List.findIdx?_eq_some_iff_getElem.mp found
  have known : M.modules[i]? = some M.modules[i] := List.getElem?_eq_getElem inside
  exact ⟨_, known, Machine.covers_of_moduleOf known found⟩

theorem Sound.module_use (sound : Sound s w order) {i : Nat} (found : M.moduleOf f = some i)
    (new : i ∉ s.loaded) : s.kernel.uses f = some (.module i) := by
  obtain ⟨m, known, covers⟩ := module_of_moduleOf found
  exact sound.modules i m known new f covers

/-- What a marked frame is marked for. -/
theorem Sound.used_iff (sound : Sound s w order) (counts : Counts s) (f : Nat) :
    s.kernel.frames.used f = true ↔ M.Fixed f ∨ (∃ i, i ∉ s.loaded ∧ M.moduleOf f = some i) ∨
      (∃ v, HeapPage M s.kernel.mappedEnd v ∧ s.kernel.home v = f) ∨
      isTable (s.kernel.uses f) = true := by
  rw [counts.tally.marked f]
  constructor
  · rintro (fixed | use | member)
    · exact Or.inl fixed
    · obtain ⟨u, use⟩ := Option.ne_none_iff_exists'.mp use
      have serves := counts.tally.serves f u use
      cases u with
      | heap v => exact Or.inr (Or.inr (Or.inl ⟨v, serves.1, serves.2.1⟩))
      | pageTable d i => exact Or.inr (Or.inr (Or.inr (isTable_iff.mpr ⟨d, i, use⟩)))
      | module i => exact Or.inr (Or.inl ⟨i, serves.2, serves.1⟩)
      | _ => exact Or.inl serves
    · exact absurd member List.not_mem_nil
  · rintro (fixed | ⟨i, new, found⟩ | ⟨v, page, rfl⟩ | table)
    · exact Or.inl fixed
    · rw [sound.module_use found new]
      exact Or.inr (Or.inl (by simp))
    · rw [sound.accounts.paging.homes v page]
      exact Or.inr (Or.inl (by simp))
    · obtain ⟨d, i, use⟩ := isTable_iff.mp table
      rw [use]
      exact Or.inr (Or.inl (by simp))

theorem mem_heapPages (sound : Sound s w order) {v : Nat} :
    v ∈ heapPages s ↔ HeapPage M s.kernel.mappedEnd v := by
  have low := M.layout.heapStart_facts
  have aligned := sound.accounts.paging.aligned
  unfold heapPages HeapPage
  rw [Finset.mem_Ico]
  omega

/-- Nothing at boot lies in the frame, and no module that is still to be loaded. -/
def Spendable (s : System M) (f : Nat) : Prop :=
  f < 2 ^ 20 ∧ ¬ M.Fixed f ∧ ∀ i, M.moduleOf f = some i → i ∈ s.loaded

theorem spendable_at_boot : f ∈ (Frames.boot M.bitmap).unusedBelow (2 ^ 20) ∪ loadedFrames s ↔
    Spendable s f := by
  unfold loadedFrames Spendable Machine.Fixed
  rw [Finset.mem_union, Frames.mem_unusedBelow, Finset.mem_filter, Finset.mem_range,
    ← and_or_left]
  refine and_congr_right fun _ => ?_
  cases found : M.moduleOf f with
  | none => simp
  | some i =>
    obtain ⟨m, known, covers⟩ := module_of_moduleOf found
    have used := M.modules_used m (List.mem_of_getElem? known) f covers
    simp [used]

theorem Sound.spendable_now (sound : Sound s w order) (counts : Counts s) :
    f ∈ s.kernel.frames.unusedBelow (2 ^ 20) ∪ ((heapPages s).image s.kernel.home ∪ tableFrames s) ↔
      Spendable s f := by
  have paging := sound.accounts.paging
  have pages : f ∈ (heapPages s).image s.kernel.home ↔
      ∃ v, HeapPage M s.kernel.mappedEnd v ∧ s.kernel.home v = f := by
    rw [Finset.mem_image]
    exact exists_congr fun v => and_congr_left fun _ => mem_heapPages sound
  have marked := sound.used_iff counts f
  unfold tableFrames Spendable
  rw [Finset.mem_union, Finset.mem_union, pages, Frames.mem_unusedBelow, Finset.mem_filter,
    Finset.mem_range]
  constructor
  · rintro (⟨bound, unset⟩ | ⟨v, page, rfl⟩ | ⟨bound, table⟩)
    · rw [unset] at marked
      have clear := marked.not.mp Bool.false_ne_true
      rw [not_or, not_or] at clear
      refine ⟨bound, clear.1, fun i found => ?_⟩
      by_contra new
      exact clear.2.1 ⟨i, new, found⟩
    · have use := paging.homes v page
      refine ⟨(paging.used _ _ use).1, (counts.tally.serves _ _ use).2.2, fun i found => ?_⟩
      by_contra new
      rw [sound.module_use found new] at use
      cases use
    · obtain ⟨d, i, use⟩ := isTable_iff.mp table
      refine ⟨bound, counts.tally.serves _ _ use, fun j found => ?_⟩
      by_contra new
      rw [sound.module_use found new] at use
      cases use
  · rintro ⟨bound, free, taken⟩
    cases set : s.kernel.frames.used f with
    | false => exact Or.inl ⟨bound, rfl⟩
    | true =>
      rcases marked.mp set with fixed | ⟨i, new, found⟩ | page | table
      · exact absurd fixed free
      · exact absurd (taken i found) new
      · exact Or.inr (Or.inl page)
      · exact Or.inr (Or.inr ⟨bound, table⟩)

/-- The frames free now, those under the heap and the page tables are as many as were free at boot
and came with the modules. -/
theorem Sound.balance (sound : Sound s w order) (counts : Counts s) :
    s.kernel.frames.unused + (heapPages s).card + (tableFrames s).card =
      (Frames.boot M.bitmap).unused + (loadedFrames s).card := by
  have paging := sound.accounts.paging
  have same : (Frames.boot M.bitmap).unusedBelow (2 ^ 20) ∪ loadedFrames s =
      s.kernel.frames.unusedBelow (2 ^ 20) ∪
        ((heapPages s).image s.kernel.home ∪ tableFrames s) := by
    ext f
    rw [spendable_at_boot, sound.spendable_now counts]
  have atBoot : Disjoint ((Frames.boot M.bitmap).unusedBelow (2 ^ 20)) (loadedFrames s) := by
    rw [Finset.disjoint_left]
    intro f free member
    unfold loadedFrames at member
    obtain ⟨_, i, _, found⟩ := Finset.mem_filter.mp member
    obtain ⟨m, known, covers⟩ := module_of_moduleOf found
    have used := M.modules_used m (List.mem_of_getElem? known) f covers
    rw [(Frames.mem_unusedBelow.mp free).2] at used
    cases used
  have homes : ∀ f ∈ (heapPages s).image s.kernel.home, ∃ v, s.kernel.uses f = some (.heap v) := by
    intro f member
    obtain ⟨v, page, rfl⟩ := Finset.mem_image.mp member
    exact ⟨v, paging.homes v ((mem_heapPages sound).mp page)⟩
  have apart : Disjoint ((heapPages s).image s.kernel.home) (tableFrames s) := by
    rw [Finset.disjoint_left]
    intro f member table
    obtain ⟨v, use⟩ := homes f member
    unfold tableFrames at table
    obtain ⟨d, i, use'⟩ := isTable_iff.mp (Finset.mem_filter.mp table).2
    rw [use] at use'
    cases use'
  have now : Disjoint (s.kernel.frames.unusedBelow (2 ^ 20))
      ((heapPages s).image s.kernel.home ∪ tableFrames s) := by
    rw [Finset.disjoint_left]
    intro f free member
    have unset := (Frames.mem_unusedBelow.mp free).2
    have use : s.kernel.uses f ≠ none := by
      rcases Finset.mem_union.mp member with home | table
      · obtain ⟨v, use⟩ := homes f home
        rw [use]
        simp
      · unfold tableFrames at table
        obtain ⟨d, i, use⟩ := isTable_iff.mp (Finset.mem_filter.mp table).2
        rw [use]
        simp
    rw [(counts.tally.marked f).mpr (Or.inr (Or.inl use))] at unset
    cases unset
  have injective : Set.InjOn s.kernel.home (heapPages s) := by
    intro v page v' page' equal
    have use := paging.homes v ((mem_heapPages sound).mp page)
    have use' := paging.homes v' ((mem_heapPages sound).mp page')
    rw [equal, use', Option.some.injEq, Use.heap.injEq] at use
    exact use.symm
  have counted := congrArg Finset.card same
  rw [Finset.card_union_of_disjoint atBoot, Finset.card_union_of_disjoint now,
    Finset.card_union_of_disjoint apart, Finset.card_image_of_injOn injective] at counted
  unfold Frames.unused
  omega

/-- In any run a marked frame is one of the memory that was marked at boot, of a module still to be
loaded, of a page of the heap or of a page table, and the free ones are as many as that leaves. The
tables of a process that is gone stay marked. -/
theorem play_balances (events : List Event) :
    Ensures (Stops M) (boot M) (play events) fun _ s =>
      (∀ f, s.kernel.frames.used f = true ↔
        M.Fixed f ∨ (∃ i, i ∉ s.loaded ∧ M.moduleOf f = some i) ∨
          (∃ v, HeapPage M s.kernel.mappedEnd v ∧ s.kernel.home v = f) ∨
          isTable (s.kernel.uses f) = true) ∧
      s.kernel.frames.unused + (heapPages s).card + (tableFrames s).card =
        (Frames.boot M.bitmap).unused + (loadedFrames s).card := by
  have start : (∃ A, Represents (boot M) A) ∧ Counts (boot M) := ⟨⟨_, boot_represents⟩, boot_counts⟩
  refine (ensures_sequence (fun s i both => ensures_act_counts both.1 both.2) start events).mono ?_
  rintro _ s ⟨⟨A, _, w, order, sound, _⟩, counts⟩
  exact ⟨sound.used_iff counts, sound.balance counts⟩

end Accounting

end System

end Snfos
