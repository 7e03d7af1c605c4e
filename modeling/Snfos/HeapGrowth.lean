import Snfos.Ledger

set_option autoImplicit false

/- The heap's end never comes back, and every process that is created takes it past another page. -/
namespace Snfos

open ByteMemory Command

namespace Kernel

variable {M : Machine}

/-- The heap keeps its contract, and is mapped up to `a` at least. -/
structure Grown (a : Nat) (k : Kernel M) : Prop where
  heap : M.allocator.Holds k.heap k.sizes
  past : a ≤ k.mappedEnd

/-- It takes the heap past another page whenever it returns. -/
def TakesPage {α : Type} (c : Action M α) : Prop :=
  ∀ a k, Grown a k → Ensures (fun _ => True) k c fun _ k' => Grown (a + 4096) k'

section Heap

variable {a : Nat} {k k' : Kernel M}

theorem Grown.congr (grown : Grown a k) (heap : k'.heap = k.heap) (sizes : k'.sizes = k.sizes) :
    Grown a k' where
  heap := by
    rw [heap, sizes]
    exact grown.heap
  past := by
    have ends : k'.mappedEnd = k.mappedEnd := by
      unfold mappedEnd
      rw [heap]
    rw [ends]
    exact grown.past

theorem books_grown : Books (Grown (M := M) a) where
  same := fun _ _ _ _ _ _ heap sizes grown => grown.congr heap sizes
  freed := fun k p live grown => by
    obtain ⟨n, size⟩ := Option.isSome_iff_exists.mp live
    obtain ⟨ends, holds⟩ := M.allocator.free_holds grown.heap size
    refine ⟨?_, ?_⟩
    · rw [sizes_update (k := k) rfl]
      exact holds
    · have past := grown.past
      unfold mappedEnd at past ⊢
      rwa [ends]

theorem mappedEnd_le {heap : M.allocator.Heap} {s : Nat → Option Nat} {p n : Nat}
    (grown : M.allocator.heapEnd k.heap ≤ M.allocator.heapEnd heap)
    (holds : M.allocator.Holds heap s) (held : s p = some n) :
    k.mappedEnd ≤ M.allocator.heapEnd heap ∧ M.allocator.heapEnd heap ≠ 0 := by
  have low := M.layout.heapStart_facts
  have inside := M.allocator.inside holds held
  unfold mappedEnd
  split <;> omega

/-- An allocation that returns has grown the heap as far as the call of the heap says. -/
theorem Grown.ensures_allocate {b : Nat} (grown : Grown a k)
    {call : M.allocator.Heap → Option (Nat × M.allocator.Heap)} {block : Block}
    (contract : ∀ p heap, call k.heap = some (p, heap) → p ≠ 0 ∧
      M.allocator.Holds heap (Function.update k.sizes p (some block.body.size)) ∧
      M.allocator.heapEnd k.heap ≤ M.allocator.heapEnd heap ∧ (b ≤ a ∨ b ≤ M.allocator.heapEnd heap)) :
    Ensures (fun _ => True) k (allocate call block) fun _ k' => Grown b k' := by
  refine Kernel.ensures_allocate (fun _ => trivial) fun p heap result _ => ?_
  apply (keeps_allocPage_lists _ _ k ⟨rfl, rfl⟩).mono
  rintro _ k₁ ⟨_, blocks₁⟩
  obtain ⟨nonzero, holds, ends, past⟩ := contract p heap result
  obtain ⟨lower, live⟩ := mappedEnd_le ends holds (Function.update_self ..)
  have before := grown.past
  have blocks : (if p = 0 then k₁.blocks else Function.update k₁.blocks p (some block)) =
      Function.update k.blocks p (some block) := by
    rw [if_neg nonzero, blocks₁]
  refine ⟨?_, ?_⟩
  · rw [sizes_update blocks]
    exact holds
  · show b ≤ if M.allocator.heapEnd heap = 0 then _ else M.allocator.heapEnd heap
    rw [if_neg live]
    omega

theorem keeps_malloc_grown (body : Body) (role : Role) (owner : Nat) (positive : 0 < body.size) :
    Keeps (Grown (M := M) a) (malloc body role owner) := by
  intro k grown
  refine grown.ensures_allocate fun p heap result => ?_
  obtain ⟨_, ends, holds⟩ := M.allocator.malloc_holds grown.heap positive result
  have low := M.layout.heapStart_facts
  have inside := M.allocator.inside holds (Function.update_self ..)
  exact ⟨by omega, holds, ends, Or.inl (Nat.le_refl _)⟩

/-- Whole pages lie past the old end of the heap. -/
theorem takesPage_mallocPages {pages : Nat} (role : Role) (owner : Nat) (positive : 0 < pages) :
    TakesPage (M := M) (mallocPages pages role owner) := by
  intro a k grown
  refine grown.ensures_allocate fun p heap result => ?_
  obtain ⟨_, lower, _, ends, holds⟩ := M.allocator.mallocPages_holds grown.heap positive result
  have low := M.layout.heapStart_facts
  have inside := M.allocator.inside holds (Function.update_self ..)
  refine ⟨by omega, holds, ends, Or.inr ?_⟩
  have past := grown.past
  unfold mappedEnd at past
  split at past <;> omega

theorem keeps_mallocPages_grown (pages : Nat) (role : Role) (owner : Nat) :
    Keeps (Grown (M := M) a) (mallocPages pages role owner) := by
  intro k grown
  by_cases none : pages = 0
  · unfold mallocPages allocate
    apply ensures_get_bind
    rw [none, M.allocator.mallocPages_zero]
    refine ensures_ite (fun _ => ensures_throw _ trivial) fun _ => ?_
    refine ensures_bind (keeps_allocPage_lists _ _ k ⟨rfl, rfl⟩) ?_
    rintro _ k₁ ⟨_, blocks₁⟩
    refine ensures_modify_bind (ensures_pure _ (grown.congr rfl ?_))
    unfold sizes
    simp only [↓reduceIte, blocks₁]
  · exact (takesPage_mallocPages role owner (by omega) a k grown).mono
      fun _ _ grown' => ⟨grown'.heap, Nat.le_of_add_right_le grown'.past⟩

theorem ledger_grown : Ledger (Grown (M := M) a) where
  toBooks := books_grown
  edited := fun address edit => by
    unfold editFrame
    exact keeps_bind keeps_resolve fun _ => keeps_modify fun _ grown => grown.congr rfl rfl
  malloc := keeps_malloc_grown
  mallocPages := keeps_mallocPages_grown

theorem keeps_mapModule_grown (module : Module) (temp : Nat) :
    Keeps (Grown (M := M) a) (mapModule module temp) := by
  intro k grown
  refine (keeps_mapModule_lists module temp k ⟨rfl, rfl⟩).mono ?_
  rintro _ k' ⟨heap, blocks⟩
  refine grown.congr heap ?_
  unfold sizes
  rw [blocks]

end Heap

section Creation

variable {α β : Type} {first : Action M α} {second : α → Action M β}

theorem takesPage_bind_left (takes : TakesPage first)
    (keeps : ∀ x a, Keeps (Grown (M := M) a) (second x)) : TakesPage (first >>= second) :=
  fun a k grown => ensures_bind (takes a k grown) fun x k' => keeps x _ k'

theorem takesPage_bind_right (keeps : ∀ a, Keeps (Grown (M := M) a) first)
    (takes : ∀ x, TakesPage (second x)) : TakesPage (first >>= second) :=
  fun a k grown => ensures_bind (keeps a k grown) fun x k' => takes x _ k'

theorem takesPage_newTable {memory i owner : Nat} : TakesPage (M := M) (newTable memory i owner) := by
  unfold newTable
  apply takesPage_bind_right fun _ => ledger_grown.malloc _ _ _ (by decide)
  intro table
  apply takesPage_bind_right fun _ => ledger_grown.keeps_setTable
  intro _
  apply takesPage_bind_left (takesPage_mallocPages _ _ (Nat.succ_pos 0))
  intro pageTable _
  exact keeps_bind ledger_grown.keeps_setPageTable fun _ => keeps_pure _

theorem takesPage_addProcess (memory : Nat) (arguments : Arguments) (before : Process) :
    TakesPage (M := M) (addProcess memory arguments before) := by
  unfold addProcess addArguments clearedTable
  apply takesPage_bind_right fun _ => keeps_ownerOf
  intro owner
  apply takesPage_bind_right fun _ => ledger_grown.keeps_linkProcess _
  intro process
  apply takesPage_bind_left ?_
  · intro _ _
    exact keeps_bind (ledger_grown.keeps_setProcess _) fun _ => keeps_pure _
  apply takesPage_bind_left ?_
  · rintro ⟨table, pageTable⟩ _
    apply keeps_bind keeps_pageDirectoryOf
    intro directory
    apply keeps_bind (ledger_grown.keeps_enterPage _)
    intro _
    exact keeps_bind (ledger_grown.keeps_newPage _) fun _ => ledger_grown.edited _ _
  apply takesPage_bind_left takesPage_newTable
  rintro ⟨table, pageTable⟩ _
  exact keeps_bind ledger_grown.keeps_zeroPage fun _ => keeps_pure _

attribute [local irreducible] forkTables in
theorem takesPage_fork (state : ProcessState) (before : Process) :
    TakesPage (M := M) (fork state before) := by
  unfold fork forkMemory
  apply takesPage_bind_right fun _ => ledger_grown.keeps_newOwner
  intro owner
  apply takesPage_bind_left ?_
  · intro newMemory _
    apply keeps_bind (ledger_grown.keeps_linkProcess _)
    intro newProcess
    apply keeps_bind (ledger_grown.keeps_setProcess _)
    intro _
    apply keeps_bind (ledger_grown.keeps_setProcess _)
    intro _
    exact keeps_bind keeps_processAt fun _ => keeps_pure _
  apply takesPage_bind_right fun _ => ledger_grown.malloc _ _ _ (by decide)
  intro newMemory
  apply takesPage_bind_left (takesPage_mallocPages _ _ (Nat.succ_pos 0))
  intro newDirectory _
  apply keeps_bind ledger_grown.keeps_setPageDirectory
  intro _
  apply keeps_bind ledger_grown.keeps_zeroPage
  intro _
  apply keeps_get_bind
  intro k _
  apply keeps_bind keeps_processAt
  intro p
  apply keeps_bind (ledger_grown.keeps_forkTables _)
  intro _
  apply keeps_bind (ledger_grown.keeps_enterPage _)
  intro _
  exact keeps_bind (ledger_grown.keeps_storeEntry _) fun _ => keeps_pure _

end Creation

end Kernel

end Snfos
