import Snfos.FrameSupply
import Snfos.Undisturbed
import Snfos.Ledger

set_option autoImplicit false

/- What each frame that the bitmap marks serves for, and how the kernel's calls keep the tally. -/
namespace Snfos

open ByteMemory Command

/-- Marked at boot, and no module's. -/
def Machine.Fixed (M : Machine) (f : Nat) : Prop :=
  (Frames.boot M.bitmap).used f = true ∧ M.moduleOf f = none

theorem Machine.covers_of_moduleOf {M : Machine} {f i : Nat} {m : Module}
    (known : M.modules[i]? = some m) (found : M.moduleOf f = some i) : m.Covers f := by
  obtain ⟨inside, rfl⟩ := List.getElem?_eq_some_iff.mp known
  unfold Machine.moduleOf at found
  rw [List.findIdx?_eq_some_iff_getElem] at found
  obtain ⟨_, covers, _⟩ := found
  exact of_decide_eq_true covers

namespace Kernel

variable {M : Machine}

/-- What is known of a frame that serves for something. The modules in `gone` were loaded. -/
def Serves (gone : Nat → Prop) (top : Nat) (k : Kernel M) (f : Nat) : Use → Prop
  | .heap v => HeapPage M top v ∧ k.home v = f ∧ ¬ M.Fixed f
  | .pageTable _ _ => ¬ M.Fixed f
  | .module i => M.moduleOf f = some i ∧ ¬ gone i
  | _ => M.Fixed f

/-- The marks of the bitmap, with the heap mapped up to `top`. The frames in `held` were handed
out and serve for nothing yet. -/
structure Tallied (gone : Nat → Prop) (held : List Nat) (top : Nat) (k : Kernel M) : Prop where
  marked : ∀ f, k.frames.used f = true ↔ M.Fixed f ∨ k.uses f ≠ none ∨ f ∈ held
  serves : ∀ f u, k.uses f = some u → Serves gone top k f u
  once : held.Nodup
  idle : ∀ f ∈ held, ¬ M.Fixed f ∧ k.uses f = none

section Changes

variable {gone : Nat → Prop} {held held' : List Nat} {top top' f v : Nat} {k k' : Kernel M}

/-- The tally looks at the bitmap, at the uses and at the homes only. -/
theorem Tallied.congr (tallied : Tallied gone held top k) (frames : k'.frames = k.frames)
    (uses : k'.uses = k.uses) (home : k'.home = k.home) : Tallied gone held top k' where
  marked := fun f => by rw [frames, uses, tallied.marked f]
  serves := fun f u use => by
    rw [uses] at use
    have serves := tallied.serves f u use
    unfold Serves at serves ⊢
    rw [home]
    exact serves
  once := tallied.once
  idle := fun f member => by
    rw [uses]
    exact tallied.idle f member

/-- A frame is handed out. -/
theorem Tallied.take (tallied : Tallied gone held top k) (unset : k.frames.used f = false) :
    Tallied gone (f :: held) top { k with frames := k.frames.take f } := by
  have clear : ¬ (M.Fixed f ∨ k.uses f ≠ none ∨ f ∈ held) := by
    rw [← tallied.marked f, unset]
    exact Bool.false_ne_true
  rw [not_or, not_or, not_not] at clear
  refine ⟨fun g => ?_, tallied.serves, List.nodup_cons.mpr ⟨clear.2.2, tallied.once⟩, ?_⟩
  · rw [Frames.used_take, Bool.or_eq_true, tallied.marked g, decide_eq_true_iff, List.mem_cons]
    tauto
  · rintro g (_ | ⟨_, member⟩)
    · exact ⟨clear.1, clear.2.1⟩
    · exact tallied.idle g member

/-- A frame that was handed out holds a page table now. -/
theorem Tallied.install (tallied : Tallied gone (f :: held) top k) (d i : Nat) :
    Tallied gone held top
      { k with uses := Function.update k.uses f (some (.pageTable d i)) } := by
  obtain ⟨new, once⟩ := List.nodup_cons.mp tallied.once
  obtain ⟨free, idle⟩ := tallied.idle f List.mem_cons_self
  refine ⟨fun g => ?_, fun g u use => ?_, once, fun g member => ?_⟩
  · rw [tallied.marked g, List.mem_cons]
    by_cases here : g = f
    · simp [here]
    · simp [here]
  · by_cases here : g = f
    · rw [here] at use ⊢
      dsimp only at use
      rw [Function.update_self, Option.some.injEq] at use
      rw [← use]
      exact free
    · dsimp only at use
      rw [Function.update_of_ne here] at use
      exact tallied.serves g u use
  · have other : g ≠ f := by
      rintro rfl
      exact new member
    dsimp only
    rw [Function.update_of_ne other]
    exact tallied.idle g (List.mem_cons_of_mem _ member)

/-- A frame that was handed out, or a module's, becomes the home of a page that has none. -/
theorem Tallied.enter (tallied : Tallied gone held top k) (page : HeapPage M top' v)
    (grows : top ≤ top') (vacant : ∀ g, k.uses g ≠ some (.heap v)) (free : ¬ M.Fixed f)
    (set : k.frames.used f = true) (rest : ∀ g, g ∈ held' ↔ g ∈ held ∧ g ≠ f) (once : held'.Nodup)
    (frames : k'.frames = k.frames) (uses : k'.uses = Function.update k.uses f (some (.heap v)))
    (home : k'.home = Function.update k.home v f) : Tallied gone held' top' k' := by
  refine ⟨fun g => ?_, fun g u use => ?_, once, fun g member => ?_⟩
  · rw [frames, uses]
    by_cases here : g = f
    · rw [here, set, Function.update_self]
      simp
    · rw [Function.update_of_ne here, tallied.marked g, rest g]
      simp [here]
  · rw [uses] at use
    by_cases here : g = f
    · rw [here, Function.update_self, Option.some.injEq] at use
      rw [← use, here]
      refine ⟨page, ?_, free⟩
      rw [home, Function.update_self]
    · rw [Function.update_of_ne here] at use
      have serves := tallied.serves g u use
      cases u with
      | heap w =>
        obtain ⟨page', home', free'⟩ := serves
        have other : w ≠ v := by
          rintro rfl
          exact vacant g use
        refine ⟨⟨page'.1, Nat.lt_of_lt_of_le page'.2 grows⟩, ?_, free'⟩
        rw [home, Function.update_of_ne other, home']
      | _ => exact serves
  · obtain ⟨before, other⟩ := (rest g).mp member
    rw [uses, Function.update_of_ne other]
    exact tallied.idle g before

/-- The home of a page is given back. -/
theorem Tallied.release (tallied : Tallied gone held top k) (use : k.uses f = some (.heap v))
    (bound : f < 2 ^ 20) : Tallied gone held top (released k f) := by
  obtain ⟨page, home, free⟩ := tallied.serves f _ use
  have away : f ∉ held := by
    intro member
    have idle := (tallied.idle f member).2
    rw [use] at idle
    cases idle
  unfold released
  refine ⟨fun g => ?_, fun g u use' => ?_, tallied.once, fun g member => ?_⟩
  · dsimp only
    rw [Frames.used_freePhysicalPage (by omega), Nat.mul_div_cancel_left f (by decide : 0 < 4096),
      Bool.and_eq_true, decide_eq_true_iff, tallied.marked g]
    by_cases here : g = f
    · rw [here, Function.update_self]
      simp [free, away]
    · rw [Function.update_of_ne here]
      simp [here]
  · dsimp only at use'
    by_cases here : g = f
    · rw [here, Function.update_self] at use'
      cases use'
    · rw [Function.update_of_ne here] at use'
      exact tallied.serves g u use'
  · dsimp only
    by_cases here : g = f
    · rw [here] at member
      exact absurd member away
    · rw [Function.update_of_ne here]
      exact tallied.idle g member

/-- A module none of whose frames serves as such any more is gone. -/
theorem Tallied.retire {i : Nat} (tallied : Tallied gone held top k)
    (none : ∀ f, k.uses f ≠ some (.module i)) : Tallied (fun j => gone j ∨ j = i) held top k where
  marked := tallied.marked
  serves := fun f u use => by
    have serves := tallied.serves f u use
    cases u with
    | module j =>
      refine ⟨serves.1, not_or.mpr ⟨serves.2, ?_⟩⟩
      rintro rfl
      exact none f use
    | _ => exact serves
  once := tallied.once
  idle := tallied.idle

end Changes

section Mapping

variable {gone : Nat → Prop} {held : List Nat} {top : Nat} {k : Kernel M}

theorem keeps_editFrame_tallied (address : Nat) (edit : Memory → Nat → Memory) :
    Keeps (Tallied (M := M) gone held top) (editFrame address edit) := by
  unfold editFrame
  apply keeps_bind keeps_resolve
  intro place
  exact keeps_modify fun _ tallied => tallied.congr rfl rfl rfl

theorem Tallied.ensures_allocateNextPage (tallied : Tallied gone held top k) :
    Ensures (fun _ => True) k allocateNextPage fun page k' =>
      ∃ f, page = 4096 * f ∧ Tallied gone (f :: held) top k' := by
  unfold allocateNextPage
  apply ensures_get_bind
  rcases k.frames.allocateNextPage_cases with ⟨f, _, unset, result, _⟩ | ⟨_, result⟩
  · rw [result]
    dsimp only
    refine ensures_ite (fun _ => ensures_throw _ trivial) fun _ => ?_
    exact ensures_set_bind (ensures_pure _ ⟨f, rfl, tallied.take unset⟩)
  · rw [result]
    exact ensures_throw _ trivial

theorem keeps_installTable_tallied (i : Nat) :
    Keeps (Tallied (M := M) gone held top) (installTable i) := by
  unfold installTable
  apply keeps_bind keeps_readWord
  intro pde
  refine keeps_ite (fun k tallied => ?_) (keeps_pure _)
  apply ensures_bind tallied.ensures_allocateNextPage
  rintro _ k₁ ⟨f, rfl, tallied₁⟩
  apply ensures_bind (keeps_editFrame_tallied _ _ k₁ tallied₁)
  intro _ k₂ tallied₂
  rw [Nat.mul_div_cancel_left f (by decide : 0 < 4096)]
  exact ensures_modify_bind (keeps_editFrame_tallied _ _ _ (tallied₂.install _ _))

/-- The next page of the heap gets a frame. -/
theorem Tallied.ensures_mapVirtualAddress {v : Nat} (tallied : Tallied gone held (4096 * v) k)
    (lower : M.layout.heapStart ≤ 4096 * v) :
    Ensures (fun _ => True) k (mapVirtualAddress (4096 * v) 0x03) fun _ k' =>
      Tallied gone held (4096 * (v + 1)) k' := by
  unfold mapVirtualAddress mapPage
  apply ensures_bind tallied.ensures_allocateNextPage
  rintro _ k₁ ⟨f, rfl, tallied₁⟩
  dsimp only
  rw [Nat.mul_div_cancel_left f (by decide : 0 < 4096),
    Nat.mul_div_cancel_left v (by decide : 0 < 4096)]
  apply ensures_bind (keeps_installTable_tallied _ k₁ tallied₁)
  intro _ k₂ tallied₂
  apply ensures_bind (keeps_editFrame_tallied _ _ k₂ tallied₂)
  intro _ k₃ tallied₃
  obtain ⟨new, once⟩ := List.nodup_cons.mp tallied₃.once
  refine ensures_modify _ (tallied₃.enter ⟨lower, by omega⟩ (by omega) (fun g use => ?_)
    (tallied₃.idle f List.mem_cons_self).1
    ((tallied₃.marked f).mpr (Or.inr (Or.inr List.mem_cons_self))) (fun g => ?_) once rfl rfl rfl)
  · have page := (tallied₃.serves g _ use).1
    exact absurd page.2 (Nat.lt_irrefl _)
  · rw [List.mem_cons]
    constructor
    · intro member
      refine ⟨Or.inr member, ?_⟩
      rintro rfl
      exact new member
    · rintro ⟨here | member, other⟩
      · exact absurd here other
      · exact member

theorem Tallied.ensures_allocPage {v : Nat} (pages : Nat) (tallied : Tallied gone held (4096 * v) k)
    (lower : M.layout.heapStart ≤ 4096 * v) :
    Ensures (fun _ => True) k (allocPage (4096 * v) pages) fun _ k' =>
      Tallied gone held (4096 * (v + pages)) k' := by
  unfold allocPage
  refine ensures_bind (ensures_for (fun i k' => Tallied gone held (4096 * (v + i)) k') tallied
    fun i k₁ _ tallied₁ => ?_) fun _ _ done => ensures_pure _ done
  rw [← Nat.mul_add]
  exact ensures_bind (tallied₁.ensures_mapVirtualAddress (by omega)) fun _ _ next => ensures_pure _ next

end Mapping

/-- The tally between two calls, with the heap's own contract. -/
structure Counted (gone : Nat → Prop) (k : Kernel M) : Prop where
  heap : M.allocator.Holds k.heap k.sizes
  tally : Tallied gone [] k.mappedEnd k

section Heap

variable {gone : Nat → Prop} {k k' : Kernel M}

theorem Counted.congr (counted : Counted gone k) (frames : k'.frames = k.frames)
    (uses : k'.uses = k.uses) (home : k'.home = k.home) (heap : k'.heap = k.heap)
    (sizes : k'.sizes = k.sizes) : Counted gone k' where
  heap := by
    rw [heap, sizes]
    exact counted.heap
  tally := by
    have ends : k'.mappedEnd = k.mappedEnd := by
      unfold mappedEnd
      rw [heap]
    rw [ends]
    exact counted.tally.congr frames uses home

/-- The heap's lists and one block change. -/
theorem Tallied.counted {heap : M.allocator.Heap} {p : Nat} {x : Option Body} (role : Role) (o : Nat)
    (tally : Tallied gone [] (M.allocator.mappedEnd heap) k)
    (holds : M.allocator.Holds heap (Function.update k.sizes p (x.map Body.size))) :
    Counted gone (rebooked k heap p (x.map (⟨·, role, o⟩))) where
  heap := by
    rw [sizes_replaced (k := k) rfl]
    exact holds
  tally := tally.congr rfl rfl rfl

theorem books_counted : Books (Counted (M := M) gone) where
  same := fun _ _ _ frames uses home heap sizes counted => counted.congr frames uses home heap sizes
  freed := fun k p live counted => by
    obtain ⟨n, size⟩ := Option.isSome_iff_exists.mp live
    obtain ⟨ends, holds⟩ := M.allocator.free_holds counted.heap size
    have same : M.allocator.mappedEnd (M.allocator.free p k.heap) = k.mappedEnd := by
      unfold Allocator.mappedEnd mappedEnd
      rw [ends]
    exact Tallied.counted (x := none) .raw 0 (same ▸ counted.tally) holds

theorem keeps_editFrame_counted (address : Nat) (edit : Memory → Nat → Memory) :
    Keeps (Counted (M := M) gone) (editFrame address edit) := by
  unfold editFrame
  apply keeps_bind keeps_resolve
  intro place
  exact keeps_modify fun _ counted => counted.congr rfl rfl rfl rfl rfl

theorem Counted.aligned (counted : Counted gone k) : k.mappedEnd % 4096 = 0 := by
  have low := M.layout.heapStart_facts
  have aligned := M.allocator.end_aligned counted.heap
  unfold mappedEnd
  split <;> omega

/-- A call of the heap that hands out no block, or one with what the heap promises of it. -/
theorem keeps_allocate {call : M.allocator.Heap → Option (Nat × M.allocator.Heap)} {block : Block}
    (contract : ∀ h sizes p heap, M.allocator.Holds h sizes → call h = some (p, heap) →
      p = 0 ∧ heap = h ∨ M.allocator.heapEnd h ≤ M.allocator.heapEnd heap ∧
        M.allocator.Holds heap (Function.update sizes p (some block.body.size))) :
    Keeps (Counted (M := M) gone) (allocate call block) := by
  have low := M.layout.heapStart_facts
  intro k counted
  refine Kernel.ensures_allocate (fun _ => trivial) fun p heap result _ => ?_
  have aligned := counted.aligned
  have lower : M.layout.heapStart ≤ k.mappedEnd := by
    rcases M.allocator.end_lower counted.heap with zero | lower
    · unfold mappedEnd
      rw [if_pos zero]
    · unfold mappedEnd
      rw [if_neg (by omega)]
      exact lower
  obtain ⟨v, ends⟩ : ∃ v, k.mappedEnd = 4096 * v := ⟨k.mappedEnd / 4096, by omega⟩
  have tally := counted.tally
  rw [ends] at tally lower ⊢
  have maps := tally.ensures_allocPage ((M.allocator.heapEnd heap - 4096 * v) / 4096) lower
  -- the pages mapped touch neither the heap's lists nor the blocks
  have both := (maps.and (keeps_allocPage_lists (4096 * v) _ k ⟨rfl, rfl⟩)).excuse
    fun _ _ => trivial
  apply both.mono
  rintro _ k₁ ⟨tally₁, heap₁, blocks₁⟩
  have sizes₁ : k₁.sizes = k.sizes := by
    unfold sizes
    rw [blocks₁]
  rcases contract k.heap k.sizes p heap counted.heap result with ⟨rfl, rfl⟩ | ⟨grown, holds⟩
  · have none : (M.allocator.heapEnd k.heap - 4096 * v) / 4096 = 0 := by
      rw [← ends]
      unfold mappedEnd
      split <;> omega
    rw [none, Nat.add_zero, ← ends] at tally₁
    have before : Counted gone { k₁ with heap := k.heap } := ⟨by
      rw [show sizes { k₁ with heap := k.heap } = k₁.sizes from rfl, sizes₁]
      exact counted.heap, tally₁.congr rfl rfl rfl⟩
    exact before.congr rfl rfl rfl rfl rfl
  · obtain ⟨low', high⟩ := M.allocator.inside holds (Function.update_self ..)
    have order : 4096 * v ≤ M.allocator.heapEnd heap := by
      rw [← ends]
      unfold mappedEnd
      split <;> omega
    have whole := M.allocator.end_aligned holds
    have top : 4096 * (v + (M.allocator.heapEnd heap - 4096 * v) / 4096) =
        M.allocator.mappedEnd heap := by
      unfold Allocator.mappedEnd
      rw [if_neg (by omega)]
      omega
    rw [top] at tally₁
    have after : Counted gone (rebooked k₁ heap p (some block)) :=
      tally₁.counted (x := some block.body) block.role block.owner (by
        rw [sizes₁]
        exact holds)
    have nonzero : p ≠ 0 := by omega
    unfold rebooked at after
    simp only [nonzero, ↓reduceIte]
    exact after

end Heap

section Calls

variable {gone : Nat → Prop}

theorem ledger_counted : Ledger (Counted (M := M) gone) where
  toBooks := books_counted
  edited := keeps_editFrame_counted
  malloc := fun _ _ _ positive => keeps_allocate fun _ _ _ _ holds result =>
    Or.inr (M.allocator.malloc_holds holds positive result).2
  mallocPages := fun pages _ _ => by
    refine keeps_allocate fun h sizes p heap holds result => ?_
    by_cases none : pages = 0
    · rw [none, M.allocator.mallocPages_zero, Option.some.injEq, Prod.mk.injEq] at result
      exact Or.inl ⟨result.1.symm, result.2.symm⟩
    · exact Or.inr (M.allocator.mallocPages_holds holds (by omega) result).2.2.2

end Calls

end Kernel

end Snfos
