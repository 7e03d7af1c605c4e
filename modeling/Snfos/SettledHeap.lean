import Snfos.Allocator

set_option autoImplicit false

/- The heap between the kernel's requests: the last block is in use, and what is left behind it
never comes to the 5 to 17 bytes that `malloc_pages` cannot fill. -/
namespace Snfos

namespace DynamicAllocation

open ByteMemory BlockChain

/-- The sizes of `process_t`, and of the structures that list pages. -/
def Structure (size : Nat) : Prop := size = 68 ∨ size = 4100

/-- So many structures may follow before the next pages. -/
structure Settled (L : Layout) (structures : Nat) (h : Heap) (bs : List BlockChain.Block) : Prop where
  represents : Represents L h bs
  last : UsedLast bs
  gap : 18 + 77 * structures ≤ (h.heapEnd - (L.heapStart + span 9 bs)) % 4096

section Settled

variable {L : Layout} {h h' : Heap} {bs bs' : List BlockChain.Block} {c n : Nat}

theorem Settled.fewer {c' : Nat} (settled : Settled L c h bs) (fewer : c' ≤ c) : Settled L c' h bs :=
  ⟨settled.represents, settled.last, Nat.le_trans (by omega) settled.gap⟩

/-- The heap stays settled where its last block stays the last, and in use. -/
theorem Settled.same_end (settled : Settled L c h bs) (rep : Represents L h' bs')
    (endPtr : h'.endPtr = h.endPtr) (heapEnd : h'.heapEnd = h.heapEnd)
    (kept : ∀ b, (h.endPtr, b) ∈ place 9 L.heapStart bs → b.owner ≠ none →
      (h.endPtr, b) ∈ place 9 L.heapStart bs') : Settled L c h' bs' := by
  obtain ⟨front, b, rfl, start⟩ := settled.represents.last
  obtain ⟨front', b', rfl, start'⟩ := rep.last
  have used : b.owner ≠ none := settled.last b (by simp)
  have placed := kept b (by simp [start]) used
  rw [← endPtr, start'] at placed
  obtain rfl : b = b' := place_functional (by decide : 0 < 9) placed (by simp)
  have gap := settled.gap
  simp only [span_append, span_cons, span_nil] at gap
  refine ⟨rep, usedLast_concat used front', ?_⟩
  simp only [span_append, span_cons, span_nil]
  rw [heapEnd]
  omega

theorem reuse_endPtr (block size : Nat) (h : Heap) : (reuse block size h).2.endPtr = h.endPtr := by
  unfold reuse
  by_cases large : 13 ≤ sub32 (blockSize (setUsed h.mem block true) block) size
  · simp only [large, ↓reduceIte]
  · simp only [large, ↓reduceIte]

/-- A structure takes 77 bytes of the gap, or whole pages with 13 bytes. -/
theorem Structure.gap {heapEnd block : Nat} (size : Structure n) (order : block ≤ heapEnd)
    (gap : 18 + 77 * (c + 1) ≤ (heapEnd - block) % 4096) :
    grownEnd heapEnd block n ≤ heapEnd + 3 * 4096 ∧
      18 + 77 * c ≤ (grownEnd heapEnd block n - (block + (9 + n))) % 4096 := by
  have covers := (grownEnd_covers n order).1
  obtain ⟨k, grown⟩ : ∃ k, grownEnd heapEnd block n = heapEnd + 4096 * k ∧ k ≤ 3 := by
    unfold grownEnd
    split
    · refine ⟨_, rfl, ?_⟩
      rcases size with rfl | rfl <;> omega
    · exact ⟨0, rfl, by decide⟩
  rw [grown.1] at covers ⊢
  obtain ⟨left, rfl⟩ : ∃ left, heapEnd = block + left := ⟨heapEnd - block, by omega⟩
  rw [Nat.add_sub_cancel_left] at gap
  refine ⟨by omega, ?_⟩
  have rest : block + left + 4096 * k - (block + (9 + n)) = left + 4096 * k - (9 + n) := by omega
  rw [rest]
  rcases size with rfl | rfl <;> omega

/-- A structure comes out of a free block, or behind the last one. -/
theorem Settled.malloc (settled : Settled L (c + 1) h bs) (size : Structure n)
    (room : h.heapEnd + 3 * 4096 < 2 ^ 32) :
    ∃ p h' bs', mallocBounded L n h = some (p, h') ∧ Settled L c h' bs' ∧
      h'.heapEnd ≤ h.heapEnd + 3 * 4096 := by
  have rep := settled.represents
  have inside := rep.inside
  have aligned := rep.aligned
  have low := L.heapStart_facts
  have positive : n ≠ 0 := by
    rcases size with rfl | rfl <;> decide
  obtain ⟨result, found, outcome⟩ := rep.search n
  obtain ⟨start, used⟩ := not_or.mp rep.used
  unfold mallocBounded mallocEnd DynamicAllocation.malloc
  simp only [start, positive, used, or_self, found, ↓reduceIte]
  cases outcome with
  | hit front back b split free fit =>
      subst split
      dsimp only
      have rep' : Represents L h (front ++ [b] ++ back) := by simpa using rep
      have tail : back ≠ [] := by
        rintro rfl
        exact settled.last b (by simp) free
      obtain ⟨_, reused, same, _⟩ := reuse_represents n rep' rfl fit
      have endPtr := reuse_endPtr (L.heapStart + span 9 front) n h
      have heapEnd := reuse_heapEnd (L.heapStart + span 9 front) n h
      obtain ⟨⟨p, h'⟩, result⟩ : ∃ result, reuse (L.heapStart + span 9 front) n h = result := ⟨_, rfl⟩
      rw [result] at reused same endPtr heapEnd
      rw [result]
      have edit := Edit.replace front [b] (carve b n fit back) back (by decide : 0 < 9) rfl same
        (Or.inr ⟨by simp, by simpa using (carve_span b n fit back).2 tail⟩)
      refine ⟨p, h', _, if_pos rep.bound, (settled.fewer (Nat.le_succ c)).same_end reused endPtr
        heapEnd fun last placed used => ?_, heapEnd ▸ Nat.le_add_right _ _⟩
      refine (edit.kept _ last (by simpa using placed) used ?_).1
      simp [owned_cons, free]
  | miss =>
      dsimp only
      obtain ⟨far, gap⟩ := size.gap inside settled.gap
      rw [rep.lastBlock]
      obtain ⟨_, extended, heapEnd, _⟩ := extend_represents n rep rfl (Nat.lt_of_le_of_lt far room)
      obtain ⟨⟨p, h'⟩, result⟩ : ∃ result, extend L.heapStart n h = result := ⟨_, rfl⟩
      rw [result] at extended heapEnd
      rw [result]
      refine ⟨p, h', _, if_pos (Nat.lt_of_le_of_lt far room), ⟨extended,
        usedLast_concat (fun none => by cases none) bs, ?_⟩, heapEnd ▸ far⟩
      rw [heapEnd]
      simpa only [span_append, span_cons, span_nil, BlockChain.Block.taken_size, Nat.add_zero, Nat.add_assoc]
        using gap

/-- A block of whole pages, with its header in the page before and a filler in front. -/
theorem Settled.mallocPages (settled : Settled L c h bs) (positive : n ≠ 0)
    (room : h.heapEnd + 4096 * (n + 2) < 2 ^ 32) :
    ∃ y h' bs', mallocPagesBounded L n h = some (y + 5, h') ∧ Settled L 52 h' bs' ∧
      h'.heapEnd ≤ h.heapEnd + 4096 * (n + 2) ∧ h.heapEnd ≤ y + 5 ∧
      Edit 9 L.heapStart h.mem h'.mem bs bs' (fun _ => False)
        fun z request => z = y ∧ request = 4096 * n := by
  have rep := settled.represents
  have gap := settled.gap
  have low := L.heapStart_facts
  have start : h.start ≠ 0 := by
    rw [rep.start]
    omega
  have free : sub32 h.heapEnd (nextBlock h.mem h.endPtr) = h.heapEnd - (L.heapStart + span 9 bs) := by
    rw [rep.lastBlock, sub32_of_le rep.inside rep.bound]
  have far : pagesEnd h.heapEnd (L.heapStart + span 9 bs) n ≤ h.heapEnd + 4096 * (n + 2) := by
    unfold pagesEnd
    split <;> omega
  obtain ⟨_, lower, heapEnd, y, bs', pointer, rep', edit, _, ends⟩ := mallocPages_represents rep rfl
    positive (by omega) (Nat.lt_of_le_of_lt far room)
  have call : mallocPagesBounded L n h = some (DynamicAllocation.mallocPages L.heapStart n h) := by
    unfold mallocPagesBounded
    rw [if_neg positive, if_neg start, free, rep.lastBlock]
    exact if_pos ⟨Nat.lt_of_le_of_lt far room, fun _ => by omega⟩
  refine ⟨y, _, bs', by rw [call, ← pointer], ⟨rep', ends.last, ?_⟩, heapEnd ▸ far, by omega, edit⟩
  have finish := ends.finish
  omega

theorem mergeNext_endPtr (x : Nat) (used : blockUsed h.mem h.endPtr = true) :
    (mergeNext x h).endPtr = h.endPtr := by
  unfold mergeNext
  dsimp only
  split
  · next guard =>
    refine if_neg fun last => ?_
    rw [last, used] at guard
    cases guard.2
  · rfl

theorem mergePrev_endPtr {x : Nat} (other : x ≠ h.endPtr) : (mergePrev x h).endPtr = h.endPtr := by
  unfold mergePrev
  dsimp only
  split <;> rfl

/-- Freeing a block in front of the last one leaves `end` where it is. -/
theorem free_endPtr {x : Nat} (used : blockUsed h.mem h.endPtr = true) (other : x ≠ h.endPtr)
    (pointer : sub32 (x + 5) 5 = x) : (free (x + 5) h).endPtr = h.endPtr := by
  have stays : blockUsed (setUsed h.mem x false) h.endPtr = true := by
    rw [← used]
    unfold blockUsed setUsed
    rw [store8_ne _ _ _ _ (Ne.symm other)]
  have next : (mergeNext x { h with mem := setUsed h.mem x false }).endPtr = h.endPtr :=
    mergeNext_endPtr x stays
  unfold free
  dsimp only
  rw [pointer]
  split
  · rw [← next] at other
    exact (mergePrev_endPtr other).trans next
  · rfl

theorem Settled.free {x request : Nat} (settled : Settled L c h bs)
    (owned : Owned 9 L.heapStart bs x request) (other : x ≠ h.endPtr) :
    ∃ bs', Settled L c (DynamicAllocation.free (x + 5) h) bs' := by
  have rep := settled.represents
  have bound := rep.bound
  have inside := rep.inside
  obtain ⟨bs', rep', edit, _⟩ := free_represents rep owned
  obtain ⟨b, placed, _⟩ := owned
  have bounds := place_bounds placed
  have used : blockUsed h.mem h.endPtr = true := by
    obtain ⟨front, last, same, start⟩ := rep.last
    have tagged := rep.chain h.endPtr last (by simp [same, start])
    rw [tagged.used]
    exact Option.isSome_iff_ne_none.mpr (settled.last last (by simp [same]))
  have pointer : sub32 (x + 5) 5 = x := by
    rw [sub32_of_le (by omega) (by omega)]
    omega
  exact ⟨bs', settled.same_end rep' (free_endPtr used other pointer) (free_heapEnd _ _)
    fun b' placed' owned' => (edit.kept _ b' placed' owned' (Ne.symm other)).1⟩

end Settled

/-- Before the first call, or settled. After whole pages the gap is a page less one word, enough for
52 structures. -/
def Ready (L : Layout) (structures : Nat) (h : Heap) : Prop :=
  structures ≤ 52 ∧ (Empty h ∨ ∃ bs, Settled L structures h bs)

section Ready

variable {L : Layout} {h h₁ h₂ : Heap} {bs : List BlockChain.Block} {c n p q : Nat}

theorem Empty.mappedEnd (empty : Empty h) : (allocator L).mappedEnd h = L.heapStart :=
  if_pos empty.heapEnd

theorem Settled.mappedEnd (settled : Settled L c h bs) : (allocator L).mappedEnd h = h.heapEnd := by
  have low := L.heapStart_facts
  have inside := settled.represents.inside
  exact if_neg (show ¬ h.heapEnd = 0 by omega)

theorem Ready.malloc (ready : Ready L (c + 1) h) (size : Structure n)
    (room : (allocator L).mappedEnd h + 4096 * 3 < 2 ^ 32) :
    ∃ p h', mallocBounded L n h = some (p, h') ∧ Ready L c h' ∧
      (allocator L).mappedEnd h' ≤ (allocator L).mappedEnd h + 4096 * 3 := by
  obtain ⟨small, empty | ⟨bs, settled⟩⟩ := ready
  · rw [empty.mappedEnd] at room ⊢
    have far : firstEnd L.heapStart n ≤ L.heapStart + 4096 * 2 := by
      unfold firstEnd
      rcases size with rfl | rfl <;> omega
    have positive : n ≠ 0 := by
      rcases size with rfl | rfl <;> decide
    obtain ⟨_, rep, heapEnd⟩ := firstBlock_represents n empty (L := L) (by omega)
    have call : mallocBounded L n h = some (firstBlock L.heapStart n h) := by
      unfold mallocBounded mallocEnd DynamicAllocation.malloc
      rw [if_pos empty.start, if_pos (by omega), if_neg positive, if_pos (Or.inl empty.start)]
    obtain ⟨⟨p, h'⟩, result⟩ : ∃ result, firstBlock L.heapStart n h = result := ⟨_, rfl⟩
    rw [result] at rep heapEnd call
    dsimp only at rep heapEnd
    have settled : Settled L c h' [.taken n n (Nat.le_refl n)] := by
      refine ⟨rep, usedLast_concat (fun none => by cases none) [], ?_⟩
      rw [heapEnd]
      simp only [span_cons, span_nil, BlockChain.Block.taken_size]
      unfold firstEnd
      rcases size with rfl | rfl <;> omega
    refine ⟨p, h', call, ⟨by omega, Or.inr ⟨_, settled⟩⟩, ?_⟩
    rw [settled.mappedEnd]
    omega
  · rw [settled.mappedEnd] at room ⊢
    obtain ⟨p, h', bs', call, settled', far⟩ := settled.malloc size (by omega)
    refine ⟨p, h', call, ⟨by omega, Or.inr ⟨bs', settled'⟩⟩, ?_⟩
    rw [settled'.mappedEnd]
    omega

/-- The block is in use afterwards, and nothing lies behind it. -/
theorem Ready.mallocPages (ready : Ready L c h) (positive : n ≠ 0)
    (room : (allocator L).mappedEnd h + 4096 * (n + 2) < 2 ^ 32) :
    ∃ y h' bs', mallocPagesBounded L n h = some (y + 5, h') ∧ Settled L 52 h' bs' ∧
      (allocator L).mappedEnd h' ≤ (allocator L).mappedEnd h + 4096 * (n + 2) ∧
      Owned 9 L.heapStart bs' y (4096 * n) := by
  obtain ⟨small, empty | ⟨bs, settled⟩⟩ := ready
  · rw [empty.mappedEnd] at room ⊢
    obtain ⟨_, heapEnd, y, bs', pointer, rep, edit, _, ends⟩ :=
      mallocPages_first empty positive (L := L) (by omega)
    have call : mallocPagesBounded L n h = some (DynamicAllocation.mallocPages L.heapStart n h) := by
      unfold mallocPagesBounded
      rw [if_neg positive, if_pos empty.start]
      exact if_pos ⟨by omega, fun some => absurd empty.start some⟩
    have finish := ends.finish
    have settled : Settled L 52 _ bs' := ⟨rep, ends.last, by omega⟩
    refine ⟨y, _, bs', by rw [call, ← pointer], settled, ?_, (edit.owned _ _).mpr (Or.inr ⟨rfl, rfl⟩)⟩
    rw [settled.mappedEnd]
    omega
  · rw [settled.mappedEnd] at room ⊢
    obtain ⟨y, h', bs', call, settled', far, _, edit⟩ := settled.mallocPages positive room
    refine ⟨y, h', bs', call, settled', ?_, (edit.owned _ _).mpr (Or.inr ⟨rfl, rfl⟩)⟩
    rw [settled'.mappedEnd]
    exact far

/-- Of two blocks of pages in a row the first may be freed again. -/
theorem Settled.free_first {y : Nat} (settled : Settled L c h₁ bs)
    (owned : Owned 9 L.heapStart bs y (4096 * n)) (positive : n ≠ 0)
    (room : h₁.heapEnd + 4096 * (n + 2) < 2 ^ 32)
    (call : mallocPagesBounded L n h₁ = some (q, h₂)) :
    ∃ bs', Settled L 52 (DynamicAllocation.free (y + 5) h₂) bs' := by
  obtain ⟨y₂, h₂', bs₂, call₂, settled₂, _, lower, edit⟩ := settled.mallocPages positive room
  rw [call] at call₂
  obtain ⟨rfl, rfl⟩ := Prod.mk.inj (Option.some.inj call₂)
  have kept : Owned 9 L.heapStart bs₂ y (4096 * n) := (edit.owned _ _).mpr (Or.inl ⟨owned, id⟩)
  obtain ⟨b₂, placed₂, _⟩ := (edit.owned y₂ (4096 * n)).mpr (Or.inr ⟨rfl, rfl⟩)
  have last := settled₂.represents.last.bounds.2 y₂ b₂ placed₂
  obtain ⟨b, placed, owner⟩ := owned
  have bounds := place_bounds placed
  have fits := b.fits _ owner
  have inside := settled.represents.inside
  exact settled₂.free kept (by omega)

end Ready

end DynamicAllocation

/-- A heap that serves what the kernel asks for while the addresses last. With `Ready c` there may
be `c` more structures before the next pages. A structure takes three pages at most, and a block of
whole pages two more than its own. -/
structure Allocator.Ample {L : Layout} (A : Allocator L) (Ready : Nat → A.Heap → Prop) : Prop where
  boot : Ready 52 A.boot
  malloc : ∀ {c n h}, Ready (c + 1) h → DynamicAllocation.Structure n →
    A.mappedEnd h + 4096 * 3 < 2 ^ 32 →
    ∃ p h', A.malloc n h = some (p, h') ∧ Ready c h' ∧ A.mappedEnd h' ≤ A.mappedEnd h + 4096 * 3
  mallocPages : ∀ {c n h}, Ready c h → n ≠ 0 → A.mappedEnd h + 4096 * (n + 2) < 2 ^ 32 →
    ∃ p h', A.mallocPages n h = some (p, h') ∧ Ready 52 h' ∧
      A.mappedEnd h' ≤ A.mappedEnd h + 4096 * (n + 2)
  /-- Of two blocks of pages in a row the first may be freed again. -/
  free : ∀ {c n h p h₁ q h₂}, Ready c h → n ≠ 0 → A.mappedEnd h + 4096 * (n + 2) < 2 ^ 32 →
    A.mappedEnd h₁ + 4096 * (n + 2) < 2 ^ 32 → A.mallocPages n h = some (p, h₁) →
    A.mallocPages n h₁ = some (q, h₂) → p ≠ 0 ∧ Ready 52 (A.free p h₂) ∧
      A.mappedEnd (A.free p h₂) = A.mappedEnd h₂

theorem DynamicAllocation.ample (L : Layout) : (allocator L).Ample (Ready L) where
  boot := ⟨Nat.le_refl _, Or.inl ⟨rfl, rfl, rfl, rfl⟩⟩
  malloc := Ready.malloc
  mallocPages := by
    intro c n h ready positive room
    obtain ⟨y, h', bs', call, settled, far, _⟩ := ready.mallocPages positive room
    exact ⟨y + 5, h', call, ⟨Nat.le_refl _, Or.inr ⟨bs', settled⟩⟩, far⟩
  free := by
    intro c n h p h₁ q h₂ ready positive room room₁ call call₁
    obtain ⟨y, h', bs, first, settled, _, owned⟩ := ready.mallocPages positive room
    have same : some (p, h₁) = some (y + 5, h') := call.symm.trans first
    obtain ⟨rfl, rfl⟩ := Prod.mk.inj (Option.some.inj same)
    rw [settled.mappedEnd] at room₁
    obtain ⟨bs', settled'⟩ := settled.free_first owned positive room₁ call₁
    refine ⟨Nat.succ_ne_zero _, ⟨Nat.le_refl _, Or.inr ⟨bs', settled'⟩⟩, ?_⟩
    have heapEnd : (allocator L).heapEnd ((allocator L).free (y + 5) h₂) = (allocator L).heapEnd h₂ :=
      free_heapEnd (y + 5) h₂
    unfold Allocator.mappedEnd
    rw [heapEnd]

end Snfos
