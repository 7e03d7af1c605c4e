import Snfos.HeapSafety

set_option autoImplicit false

/- Free blocks side by side: `free` merges one neighbour on each side, which is
enough as long as no call leaves two free blocks next to each other. -/
namespace Snfos.DynamicAllocation

open ByteMemory BlockChain

/-- No block before `end` is free together with the one after it. -/
def NoFreePair (h : Heap) : Prop :=
  ∀ b, OnWalk h b → b ≠ h.endPtr →
    blockUsed h.mem b = true ∨ blockUsed h.mem (nextBlock h.mem b) = true

section Pairs

variable {L : Layout} {h : Heap} {bs : List Block}

theorem Tagged.used_iff {m : Memory} {x : Nat} {b : Block} (tagged : Tagged m x b) :
    blockUsed m x = true ↔ b.owner ≠ none := by
  rw [tagged.used, Option.isSome_iff_ne_none]

/-- Neighbours in the chain are neighbours on the walk. -/
theorem Represents.noFreePair_iff (rep : Represents L h bs) : NoFreePair h ↔ Coalesced bs := by
  constructor
  · intro apart
    refine List.isChain_iff_forall_rel_of_append_cons_cons.mpr fun {b c front back} split => ?_
    have placed : (L.heapStart + span 9 front, b) ∈ place 9 L.heapStart bs := by
      rw [split]
      exact mem_place_middle _ _ _ _
    have placedNext : (L.heapStart + span 9 front + (9 + b.size), c) ∈ place 9 L.heapStart bs := by
      rw [split]
      simp
    have before := (rep.last.bounds.2 _ c placedNext)
    have tagged := rep.chain _ b placed
    have taggedNext := rep.chain _ c placedNext
    have either := apart _ ((rep.onWalk_iff _).mpr ⟨b, placed⟩) (by omega)
    rw [tagged.nextBlock (rep.fits placed), tagged.used_iff, taggedNext.used_iff] at either
    exact either
  · intro kept x on different
    obtain ⟨b, placed⟩ := (rep.onWalk_iff x).mp on
    obtain ⟨front, back, split, here⟩ := mem_place_split placed
    cases back with
    | nil =>
      rw [split] at rep
      have last := rep.last.eq_span
      exact absurd (here.trans last.symm) different
    | cons c back =>
      have placedNext : (x + (9 + b.size), c) ∈ place 9 L.heapStart bs := by
        rw [split, here]
        simp
      have tagged := rep.chain _ b placed
      have taggedNext := rep.chain _ c placedNext
      rw [tagged.nextBlock (rep.fits placed), tagged.used_iff, taggedNext.used_iff]
      exact List.isChain_iff_forall_rel_of_append_cons_cons.mp kept split

theorem Represents.usedLast (rep : Represents L h bs) (used : blockUsed h.mem h.endPtr = true) :
    UsedLast bs := by
  intro b last
  obtain ⟨front, split⟩ := List.getLast?_eq_some_iff.mp last
  rw [split] at rep
  have placed : (h.endPtr, b) ∈ place 9 L.heapStart (front ++ [b]) := by
    rw [rep.last.eq_span]
    exact mem_place_middle _ front [] b
  exact (rep.chain _ b placed).used_iff.mp used

theorem Empty.noFreePair (empty : Empty h) : NoFreePair h := by
  rintro b ⟨k, reached, before⟩ different
  cases k with
  | zero => exact absurd (reached.symm.trans (empty.start.trans empty.endPtr.symm)) different
  | succ k => exact absurd (empty.start.trans empty.endPtr.symm) (before 0 (Nat.succ_pos k))

end Pairs

namespace Client

/-- A call of `malloc_pages` on a heap with blocks finds the last one in use. -/
def LastUsed (c : Client) : Call → Prop
  | .mallocPages pages => pages ≠ 0 → c.heap.start ≠ 0 →
      blockUsed c.heap.mem c.heap.endPtr = true
  | _ => True

instance (c : Client) : ∀ call, Decidable (c.LastUsed call)
  | .mallocPages _ => inferInstanceAs (Decidable (_ → _ → _))
  | .malloc _ => isTrue trivial
  | .free _ => isTrue trivial
  | .store _ _ => isTrue trivial

section Invariant

variable {L : Layout} {c c' : Client}

theorem malloc_noFreePair (size : Nat) (sound : Sound L c) (apart : NoFreePair c.heap)
    (bounded : c.NoOverflow L (.malloc size)) (stepped : c.step L (.malloc size) = some c') :
    NoFreePair c'.heap := by
  by_cases positive : size = 0
  · simp only [step, malloc, positive, ↓reduceIte, Option.some.injEq] at stepped
    rw [← stepped]
    exact apart
  · have room := bounded positive
    cases sound with
    | empty heap none =>
      unfold mallocEnd at room
      rw [if_pos heap.start] at room
      obtain ⟨_, rep, _⟩ := firstBlock_represents size heap room
      simp only [step, malloc, positive, heap.start, true_or, ↓reduceIte, Option.some.injEq] at stepped
      rw [← stepped]
      exact rep.noFreePair_iff.mpr (.singleton _)
    | blocks bs holds =>
      obtain ⟨x, h, bs', result, _, rep, _, kept⟩ := malloc_represents holds.represents positive room
      simp only [step, result, Option.some.injEq] at stepped
      rw [← stepped]
      exact rep.noFreePair_iff.mpr (kept (holds.represents.noFreePair_iff.mp apart))

/-- The filler block of `malloc_pages` is free, so the block before it must not be. -/
theorem mallocPages_noFreePair (pages : Nat) (sound : Sound L c) (apart : NoFreePair c.heap)
    (allowed : Allowed L c (.mallocPages pages)) (last : c.LastUsed (.mallocPages pages))
    (stepped : c.step L (.mallocPages pages) = some c') : NoFreePair c'.heap := by
  simp only [step, Option.some.injEq] at stepped
  rw [← stepped]
  show NoFreePair (mallocPages L.heapStart pages c.heap).2
  by_cases positive : pages = 0
  · rw [mallocPages, if_pos positive]
    exact apart
  · have room := allowed.bounded positive
    cases sound with
    | empty heap none =>
      rw [if_pos heap.start] at room
      obtain ⟨_, _, _, bs', _, rep, _, kept, _⟩ := mallocPages_first heap positive room
      exact rep.noFreePair_iff.mpr kept
    | blocks bs holds =>
      have rep := holds.represents
      have low := L.heapStart_facts
      have used : c.heap.start ≠ 0 := by
        rw [rep.start]
        omega
      have fits := allowed.gap used
      rw [rep.lastBlock, sub32_of_le rep.inside rep.bound] at fits
      rw [if_neg used, rep.lastBlock] at room
      obtain ⟨_, _, _, _, bs', _, rep', _, kept, _⟩ := mallocPages_represents rep rfl positive fits room
      exact rep'.noFreePair_iff.mpr
        (kept (rep.noFreePair_iff.mp apart) (rep.usedLast (last positive used)))

theorem free_noFreePair (ptr : Nat) (sound : Sound L c) (apart : NoFreePair c.heap)
    (permitted : c.Permitted (.free ptr)) : NoFreePair (free ptr c.heap) := by
  rcases permitted with rfl | ⟨size, live⟩
  · have same : free 0 c.heap = c.heap := by simp [free]
    rw [same]
    exact apart
  · obtain ⟨bs, holds⟩ := sound.holds live
    obtain ⟨x, here, owned⟩ := (holds.live ptr size).mp live
    obtain ⟨bs', rep, _, kept⟩ := free_represents holds.represents owned
    rw [← here]
    exact rep.noFreePair_iff.mpr (kept (holds.represents.noFreePair_iff.mp apart))

theorem store_noFreePair (address : Nat) (value : UInt8) (sound : Sound L c)
    (apart : NoFreePair c.heap) (permitted : c.Permitted (.store address value)) :
    NoFreePair { c.heap with mem := store8 c.heap.mem address value } := by
  obtain ⟨p, size, live, lower, upper⟩ := permitted
  obtain ⟨bs, holds⟩ := sound.holds live
  have stored := holds.overwrite live
    (sameOutside_store8 c.heap.mem address value p (p + size) lower upper)
  exact stored.represents.noFreePair_iff.mpr (holds.represents.noFreePair_iff.mp apart)

theorem step_noFreePair (call : Call) (sound : Sound L c) (apart : NoFreePair c.heap)
    (allowed : Allowed L c call) (last : c.LastUsed call) (stepped : c.step L call = some c') :
    NoFreePair c'.heap := by
  cases call with
  | malloc size => exact malloc_noFreePair size sound apart allowed.bounded stepped
  | mallocPages pages => exact mallocPages_noFreePair pages sound apart allowed last stepped
  | free ptr =>
    cases stepped
    exact free_noFreePair ptr sound apart allowed.permitted
  | store address value =>
    cases stepped
    exact store_noFreePair address value sound apart allowed.permitted

theorem runs_noFreePair {calls : List Call}
    (runs : Runs L (fun c call => Allowed L c call ∧ c.LastUsed call) c calls c')
    (sound : Sound L c) (apart : NoFreePair c.heap) : Sound L c' ∧ NoFreePair c'.heap := by
  induction runs with
  | nil c => exact ⟨sound, apart⟩
  | cons allowed stepped rest ih =>
    obtain ⟨d, stepped', sound', _⟩ := step_sound _ sound allowed.1
    rw [stepped] at stepped'
    cases stepped'
    exact ih sound' (step_noFreePair _ sound apart allowed.1 allowed.2 stepped)

/-- With nothing held and no free pair, the one block left is free. -/
theorem Sound.single (sound : Sound L c) (apart : NoFreePair c.heap) (none : c.live = []) :
    c.heap.start = c.heap.endPtr ∧
      (c.heap.start ≠ 0 → blockUsed c.heap.mem c.heap.start = false) := by
  cases sound with
  | empty heap _ => exact ⟨heap.start.trans heap.endPtr.symm, fun used => absurd heap.start used⟩
  | blocks bs holds =>
    have rep := holds.represents
    have free : ∀ x b, (x, b) ∈ place 9 L.heapStart bs → b.owner = .none := by
      intro x b placed
      cases owner : b.owner with
      | none => rfl
      | some request =>
        have live := (holds.live (x + 5) request).mpr ⟨x, rfl, b, placed, owner⟩
        rw [none] at live
        cases live
    have kept := rep.noFreePair_iff.mp apart
    obtain ⟨front, b, split, finish⟩ := rep.last
    have alone : front = [] := by
      rcases front.eq_nil_or_concat with empty | ⟨front, d, concat⟩
      · exact empty
      · rw [split, concat, List.concat_eq_append, List.append_assoc, List.singleton_append] at kept
        have either := List.isChain_iff_forall_rel_of_append_cons_cons.mp kept rfl
        rw [split, concat, List.concat_eq_append, List.append_assoc, List.singleton_append] at free
        rw [free _ d (mem_place_middle _ _ _ _), free _ b (by
          rw [List.append_cons]
          exact mem_place_middle _ (front ++ [d]) [] b)] at either
        exact either.elim (absurd rfl) (absurd rfl)
    rw [alone, span_nil, Nat.add_zero, ← rep.start] at finish
    refine ⟨finish.symm, fun _ => ?_⟩
    have placed : (L.heapStart, b) ∈ place 9 L.heapStart bs := by
      rw [split, alone]
      exact List.mem_cons_self ..
    rw [rep.start, (rep.chain _ b placed).used, free _ b placed]
    rfl

end Invariant

/-- No two free blocks stand side by side in any run in which no page block is asked
for while the last block is free, nor with a gap between 5 and 17 bytes after it.
Once all is freed, one free block is left. -/
theorem free_blocks_coalesce (L : Layout) (m : Memory) (calls : List Call) (c : Client)
    (run : Runs L (fun c call => Allowed L c call ∧ c.LastUsed call) (boot m) calls c) :
    NoFreePair c.heap ∧ (c.live = [] → c.heap.start = c.heap.endPtr ∧
      (c.heap.start ≠ 0 → blockUsed c.heap.mem c.heap.start = false)) := by
  obtain ⟨sound, apart⟩ := runs_noFreePair run (boot_sound L m)
    (Empty.noFreePair ⟨rfl, rfl, rfl, rfl⟩)
  exact ⟨apart, sound.single apart⟩

/-- Three blocks and one of pages, all freed. -/
theorem free_blocks_coalesce_freed : ∃ c : Client, c.live = [] ∧ NoFreePair c.heap ∧
    c.heap.start = c.heap.endPtr ∧ blockUsed c.heap.mem c.heap.start = false := by
  obtain ⟨c, run, empty, used⟩ := exists_runs
    (fun c call => Allowed sampleLayout c call ∧ c.LastUsed call)
    (fun c => c.live = [] ∧ c.heap.start ≠ 0)
    (show (perform _ sampleLayout (boot fun _ => 0) (sampleCalls ++
      [.mallocPages 1, .free 0xC0122047, .free 0xC0122005, .free 0xC0123000])).any _ = true by
      decide +kernel)
  obtain ⟨apart, single⟩ := free_blocks_coalesce sampleLayout (fun _ => 0) _ c run
  exact ⟨c, empty, apart, (single empty).1, (single empty).2 used⟩

/-- The last block is free when `malloc_pages` puts a free filler behind it. -/
theorem mallocPages_leaves_free_pair :
    ∃ c, Runs sampleLayout (fun c call => c.Permitted call ∧ c.NoOverflow sampleLayout call)
        (boot fun _ => 0) [.malloc 8, .free 0xC0122005, .mallocPages 1] c ∧ ¬ NoFreePair c.heap := by
  have room : firstEnd sampleLayout.heapStart 8 < 2 ^ 32 := by decide
  refine ⟨_, .cons ⟨trivial, fun _ => room⟩ (first_step 8 (by decide) _)
    (.cons ⟨Or.inr ⟨8, List.mem_cons_self ..⟩, trivial⟩ rfl
      (.cons ⟨trivial, fun _ => ?_⟩ rfl (.nil _))), ?_⟩
  · decide
  · intro apart
    have either := apart 0xC0122000 ⟨0, by decide, fun i before => absurd before (Nat.not_lt_zero i)⟩
      (by decide)
    revert either
    decide

end Client

end Snfos.DynamicAllocation
