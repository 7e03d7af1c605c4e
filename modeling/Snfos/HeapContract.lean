import Snfos.HeapSteps

set_option autoImplicit false

/- What a whole call of `malloc`, `malloc_pages` or `free` does to the chain. -/
namespace Snfos.DynamicAllocation

open ByteMemory BlockChain

/-- The heap before its first call: all statics zero. -/
structure Empty (h : Heap) : Prop where
  start : h.start = 0
  endPtr : h.endPtr = 0
  heapEnd : h.heapEnd = 0
  allocEnd : h.allocEnd = 0

section Calls

variable {L : Layout} {h : Heap}

/-- `heap_end` after the first call, without wrap-around. -/
def firstEnd (heapStart size : Nat) : Nat := heapStart + 4096 * ((size + 9 + 4095) / 4096)

theorem firstBlock_represents (size : Nat) (empty : Empty h)
    (room : firstEnd L.heapStart size < 2 ^ 32) :
    (firstBlock L.heapStart size h).1 = L.heapStart + 5 ∧
      Represents L (firstBlock L.heapStart size h).2
        [.taken size size (Nat.le_refl size)] ∧
      (firstBlock L.heapStart size h).2.heapEnd = firstEnd L.heapStart size := by
  have low := L.heapStart_facts
  obtain ⟨x, here⟩ : ∃ x, x = L.heapStart := ⟨_, rfl⟩
  rw [← here] at low ⊢
  unfold firstEnd at room
  rw [← here] at room
  have first : numPages 0 (endBlock 0 size) = (size + 9 + 4095) / 4096 := by
    unfold endBlock
    rw [u32_of_lt (by omega), numPages_eq (by omega) (by omega)]
    omega
  have second : numPages x (endBlock x size) = (size + 9 + 4095) / 4096 := by
    unfold endBlock
    rw [u32_of_lt (by omega), numPages_eq (by omega) (by omega)]
    omega
  have product : u32 (4096 * ((size + 9 + 4095) / 4096)) = 4096 * ((size + 9 + 4095) / 4096) :=
    u32_of_lt (by omega)
  have finish : u32 (x + 4096 * ((size + 9 + 4095) / 4096)) =
      x + 4096 * ((size + 9 + 4095) / 4096) := u32_of_lt (by omega)
  have written := tagged_write h.mem x (.taken size size (Nat.le_refl size))
    (by simp only [Block.taken_size]; omega)
  simp only [Block.taken_size, Block.taken_owner, Option.isSome_some] at written
  unfold firstBlock allocPage
  simp only [empty.start, empty.allocEnd, ↓reduceIte, first, second, product, finish]
  refine ⟨u32_of_lt (by omega), ?_, rfl⟩
  refine ⟨here, ⟨[], _, rfl, by simp [here]⟩, ?_, ?_, room, ?_, rfl⟩
  · rw [← here]
    exact (chain_cons _ _ _ _).mpr ⟨written.1, chain_nil _ _⟩
  · simp only [span_cons, span_nil, Block.taken_size]
    omega
  · simp only
    omega

/-- `free` on a block in use: its owner goes, the neighbours may merge, and the
bytes of every other owned block stay. -/
theorem free_represents {bs : List Block} {x request : Nat} (rep : Represents L h bs)
    (owned : Owned 9 L.heapStart bs x request) :
    ∃ bs', Represents L (free (x + 5) h) bs' ∧
      Edit 9 L.heapStart h.mem (free (x + 5) h).mem bs bs' (fun y => y = x)
        (fun _ _ => False) ∧ (Coalesced bs → Coalesced bs') := by
  obtain ⟨b, placed, owner⟩ := owned
  obtain ⟨front, back, rfl, here⟩ := mem_place_split placed
  have inside := rep.inside
  have bound := rep.bound
  simp only [span_append, span_cons] at inside
  have tagged : Tagged h.mem x b := rep.chain x b placed
  have rep' : Represents L h (front ++ [b] ++ back) := by simpa using rep
  have pointer : sub32 (x + 5) 5 = x := by
    rw [sub32_of_le (by omega) (by omega)]
    omega
  have guard : x + 5 ≠ 0 ∧ blockUsed h.mem (sub32 (x + 5) 5) = true := by
    rw [pointer, tagged.used, owner]
    exact ⟨by omega, rfl⟩
  have same : SameOutside h.mem (setUsed h.mem x false) x (x + (9 + b.size)) :=
    sameOutside_setUsed h.mem x false _ (by omega)
  have upper : back = [] ∨ (x + (9 + b.size) = x + span 9 [b] ∧
      span 9 [.free b.size] = span 9 [b]) := Or.inr ⟨by simp, by simp⟩
  have cleared : Represents L { h with mem := setUsed h.mem x false }
      (front ++ [.free b.size] ++ back) := by
    refine rep'.replace _ _ same here upper ?_ rfl ?_ ?_ rep.bound rep.aligned rep.agree
    · exact (chain_cons _ _ _ _).mpr ⟨tagged.setUsed (.free b.size) rfl, chain_nil _ _⟩
    · by_cases tail : back = []
      · subst tail
        have finish := rep'.last
        rw [List.append_nil] at finish ⊢
        rw [finish.eq_span]
        exact ends_concat _ _ _
      · exact rep'.last.replace tail (by simp)
    · simp only [span_append, span_cons, span_nil, Block.free_size]
      omega
  have first : Edit 9 L.heapStart h.mem (setUsed h.mem x false) (front ++ [b] ++ back)
      (front ++ [.free b.size] ++ back) (fun y => y = x) (fun _ _ => False) := by
    refine (Edit.replace _ _ _ _ (by decide) here same upper).congr ?_ ?_
    · intro y
      simp [owned_cons, owner]
    · intro y other
      simp [owned_cons]
  obtain ⟨c, back', cfree, merged, second, right⟩ := mergeNext_represents cleared here rfl
  obtain ⟨bs', result, third, left⟩ := mergePrev_represents merged here cfree
  unfold free
  rw [if_pos guard, pointer]
  refine ⟨bs', result, ?_, fun kept => ?_⟩
  · have whole := (first.trans second).trans third
    simpa using whole
  · rw [List.append_cons] at kept
    obtain ⟨before, after, _⟩ := (coalesced_middle front back b).mp kept
    exact left before (right after).1 (right after).2

/-- `heap_end` after `malloc_pages` placed its block past `block`, without wrap-around. -/
def pagesEnd (heapEnd block pages : Nat) : Nat :=
  (if heapEnd - block < 5 then heapEnd + 4096 else heapEnd) + (pages + 1) * 4096

/-- The chain ends in a block in use, so far before `heap_end`. -/
structure EndsUsed (L : Layout) (h : Heap) (bs : List Block) (left : Nat) : Prop where
  last : UsedLast bs
  finish : L.heapStart + span 9 bs + left = h.heapEnd

/-- The space the filler block of `malloc_pages` takes is 18 bytes or more. -/
theorem fill_represents (bs : List Block) (x pages : Nat) (start : h.start = L.heapStart)
    (chain : Chain 9 (Tagged h.mem) L.heapStart bs) (here : x = L.heapStart + span 9 bs)
    (gap : x + 18 ≤ h.heapEnd) (aligned : h.heapEnd % 4096 = 0) (agree : h.allocEnd = h.heapEnd)
    (room : h.heapEnd + (pages + 1) * 4096 < 2 ^ 32) :
    let result := pagesLast L.heapStart pages (pagesFill x h)
    result.1 = h.heapEnd ∧ result.2.heapEnd = h.heapEnd + (pages + 1) * 4096 ∧
      ∃ bs', Represents L result.2 bs' ∧
        Edit 9 L.heapStart h.mem result.2.mem bs bs' (fun _ => False)
          (fun y request => y = h.heapEnd - 5 ∧ request = 4096 * pages) ∧
        (Coalesced bs → UsedLast bs → Coalesced bs') ∧ EndsUsed L result.2 bs' 4092 := by
  obtain ⟨size, sizeIs⟩ : ∃ size, size = h.heapEnd - x - 14 := ⟨_, rfl⟩
  obtain ⟨y, yIs⟩ : ∃ y, y = h.heapEnd - 5 := ⟨_, rfl⟩
  have space : sub32 h.heapEnd x = h.heapEnd - x := sub32_of_le (by omega) (by omega)
  have filler : sub32 (sub32 (sub32 h.heapEnd x) 10) 4 = size := by
    rw [space, sub32_of_le (a := h.heapEnd - x) (by omega) (by omega),
      sub32_of_le (by omega) (by omega)]
    omega
  -- the filler block
  obtain ⟨m, mIs⟩ : ∃ m, m = setEndingSize (setSize (setUsed h.mem x false) x size) x size :=
    ⟨_, rfl⟩
  have filled := tagged_write h.mem x (.free size) (by simp only [Block.free_size]; omega)
  simp only [Block.free_size, Block.free_owner, Option.isSome_none, ← mIs] at filled
  have next : nextBlock m x = y := by
    rw [filled.1.nextBlock (by simp only [Block.free_size]; omega), Block.free_size]
    omega
  have fill : pagesFill x h = { h with mem := m, endPtr := y } := by
    unfold pagesFill
    simp only [filler]
    rw [if_pos (by omega), setUsed_setSize _ _ _ _ (by omega),
      blockSize_setSize _ _ _ (by omega), ← mIs, next]
  -- the page block: whatever stood in `used` is overwritten last
  obtain ⟨old, oldSize, oldUsed⟩ : ∃ old : Block, old.size = 4096 * pages ∧
      blockUsed m y = old.owner.isSome := by
    cases used : blockUsed m y with
    | false => exact ⟨.free (4096 * pages), rfl, rfl⟩
    | true => exact ⟨.taken (4096 * pages) 0 (Nat.zero_le _), rfl, rfl⟩
  have sized := tagged_resize (m := m) (x := y) old oldUsed (by omega)
  rw [oldSize] at sized
  have taken := sized.1.setUsed (.taken (4096 * pages) (4096 * pages) (Nat.le_refl _))
    (by rw [oldSize]; rfl)
  simp only [Block.taken_owner, Option.isSome_some] at taken
  obtain ⟨m', m'Is⟩ : ∃ m', m' = setUsed
      (setEndingSize (setSize m y (4096 * pages)) y (4096 * pages)) y true := ⟨_, rfl⟩
  rw [← m'Is] at taken
  have frame : SameOutside m m' y (y + (9 + 4096 * pages)) := by
    rw [m'Is]
    exact sized.2.trans (sameOutside_setUsed _ _ _ _ (by omega))
  have count : u32 (pages + 1) = pages + 1 := u32_of_lt (by omega)
  have alloc := allocPage_grown L.heapStart (pages + 1) { h with mem := m, endPtr := y }
    (by simp only; omega) (by rw [Nat.mul_comm]; simp only; omega)
  rw [Nat.mul_comm 4096] at alloc
  have lastIs : pagesLast L.heapStart pages (pagesFill x h) =
      (y + 5, ⟨m', h.start, y, h.heapEnd + (pages + 1) * 4096,
        h.allocEnd + (pages + 1) * 4096⟩) := by
    unfold pagesLast
    rw [fill, count, alloc]
    simp only
    have bytes : u32 (4096 * pages) = 4096 * pages := u32_of_lt (by omega)
    have grown : u32 ((pages + 1) * 4096) = (pages + 1) * 4096 := u32_of_lt (by omega)
    have finish : u32 (h.heapEnd + (pages + 1) * 4096) = h.heapEnd + (pages + 1) * 4096 :=
      u32_of_lt room
    have pointer : u32 (y + 5) = y + 5 := u32_of_lt (by omega)
    have size' : blockSize (setSize m y (4096 * pages)) y = 4096 * pages :=
      blockSize_setSize m y _ (by omega)
    rw [bytes, size', ← m'Is, grown, finish, pointer]
  have same : SameOutside h.mem m' x (y + (9 + 4096 * pages)) := by
    refine (filled.2.mono (Nat.le_refl x) ?_).trans (frame.mono (by omega) (Nat.le_refl _))
    omega
  have described : Chain 9 (Tagged m') x
      [.free size, .taken (4096 * pages) (4096 * pages) (Nat.le_refl _)] := by
    refine (chain_cons _ _ _ _).mpr ⟨filled.1.frame frame (Or.inl ?_), ?_⟩
    · simp only [Block.free_size]
      omega
    · have place : x + (9 + (Block.free size).size) = y := by
        simp only [Block.free_size]
        omega
      rw [place]
      exact (chain_cons _ _ _ _).mpr ⟨taken, chain_nil _ _⟩
  have chain' : Chain 9 (Tagged h.mem) L.heapStart (bs ++ [] ++ []) := by simpa using chain
  intro result
  have resultIs : result = (y + 5, ⟨m', h.start, y, h.heapEnd + (pages + 1) * 4096,
      h.allocEnd + (pages + 1) * 4096⟩) := lastIs
  rw [resultIs]
  refine ⟨by simp only; omega, rfl,
    bs ++ [.free size, .taken (4096 * pages) (4096 * pages) (Nat.le_refl _)], ?_, ?_, ?_, ?_, ?_⟩
  · have whole := chain'.replace (tagged_frames same) here (Or.inl rfl) described
    rw [List.append_nil] at whole
    refine ⟨start, ?_, whole, ?_, room, ?_, ?_⟩
    · refine ⟨bs ++ [.free size], .taken (4096 * pages) (4096 * pages) (Nat.le_refl _), by simp, ?_⟩
      simp only [span_append, span_cons, span_nil, Block.free_size]
      omega
    · simp only [span_append, span_cons, span_nil, Block.free_size, Block.taken_size]
      omega
    · simp only
      omega
    · simp only [agree]
  · have edit := Edit.replace bs [] [.free size, .taken (4096 * pages) (4096 * pages) (Nat.le_refl _)] []
      (by decide : 0 < 9) here same (Or.inl rfl)
    simp only [List.append_nil] at edit
    apply edit.congr (by simp)
    intro z request
    have place : x + (9 + size) = h.heapEnd - 5 := by omega
    simp [owned_cons, place, eq_comm]
  · intro kept used
    rw [List.append_cons]
    refine (coalesced_concat _ _).mpr ⟨(coalesced_concat _ _).mpr ⟨kept, fun _ => used⟩, ?_⟩
    intro none
    cases none
  · rw [List.append_cons]
    exact usedLast_concat (fun none => by cases none) _
  · simp only [span_append, span_cons, span_nil, Block.free_size, Block.taken_size]
    omega

/-- `malloc_pages` on a heap with blocks, unless between 5 and 17 bytes are left
after the last one. -/
theorem mallocPages_represents {bs : List Block} {x pages : Nat} (rep : Represents L h bs)
    (here : x = L.heapStart + span 9 bs) (positive : pages ≠ 0)
    (gap : h.heapEnd - x < 5 ∨ 18 ≤ h.heapEnd - x) (room : pagesEnd h.heapEnd x pages < 2 ^ 32) :
    let result := mallocPages L.heapStart pages h
    result.1 % 4096 = 0 ∧ h.heapEnd ≤ result.1 ∧
      result.2.heapEnd = pagesEnd h.heapEnd x pages ∧
      ∃ y bs', result.1 = y + 5 ∧ Represents L result.2 bs' ∧
        Edit 9 L.heapStart h.mem result.2.mem bs bs' (fun _ => False)
          (fun z request => z = y ∧ request = 4096 * pages) ∧
        (Coalesced bs → UsedLast bs → Coalesced bs') ∧ EndsUsed L result.2 bs' 4092 := by
  have low := L.heapStart_facts
  have inside := rep.inside
  have bound := rep.bound
  have aligned := rep.aligned
  have agree := rep.agree
  have used : h.start ≠ 0 := by
    rw [rep.start]
    omega
  have block : pagesBlock L.heapStart h = (x, h) := by
    unfold pagesBlock
    rw [if_neg used, rep.lastBlock, here]
  have space : sub32 h.heapEnd x = h.heapEnd - x := sub32_of_le (by omega) (by omega)
  obtain ⟨h', roomIs, mem, start, heapEnd, allocEnd⟩ : ∃ h', pagesRoom L.heapStart x h = h' ∧
      h'.mem = h.mem ∧ h'.start = L.heapStart ∧
      h'.heapEnd = (if h.heapEnd - x < 5 then h.heapEnd + 4096 else h.heapEnd) ∧
      h'.allocEnd = h'.heapEnd := by
    unfold pagesEnd at room
    by_cases short : h.heapEnd - x < 5
    · simp only [short, ↓reduceIte] at room ⊢
      have alloc := allocPage_grown L.heapStart 1 h (by omega) (by omega)
      have more : u32 (h.heapEnd + 4096) = h.heapEnd + 4096 := u32_of_lt (by omega)
      refine ⟨_, rfl, ?_⟩
      unfold pagesRoom
      simp only [space, short, ↓reduceIte, alloc, more]
      exact ⟨trivial, rep.start, trivial, by omega⟩
    · simp only [short, ↓reduceIte]
      refine ⟨h, ?_, rfl, rep.start, rfl, agree⟩
      unfold pagesRoom
      simp only [space, short, ↓reduceIte]
  have enough : x + 18 ≤ h'.heapEnd := by
    rw [heapEnd]
    split <;> omega
  have whole : h'.heapEnd % 4096 = 0 := by
    rw [heapEnd]
    split <;> omega
  have grows : h.heapEnd ≤ h'.heapEnd := by
    rw [heapEnd]
    split <;> omega
  have final : pagesEnd h.heapEnd x pages = h'.heapEnd + (pages + 1) * 4096 := by
    unfold pagesEnd
    rw [heapEnd]
  rw [final] at room
  have filled := fill_represents bs x pages start
    (mem ▸ rep.chain) here enough whole allocEnd room
  intro result
  have resultIs : result = pagesLast L.heapStart pages (pagesFill x h') := by
    simp only [result, mallocPages, positive, ↓reduceIte, block, roomIs]
  rw [resultIs, final]
  obtain ⟨pointer, finish, bs', rep', edit, kept, ends⟩ := filled
  rw [pointer]
  exact ⟨whole, grows, finish, h'.heapEnd - 5, bs', by omega, rep', mem ▸ edit, kept, ends⟩

/-- `malloc_pages` as the first call. -/
theorem mallocPages_first {pages : Nat} (empty : Empty h) (positive : pages ≠ 0)
    (room : L.heapStart + 4096 + (pages + 1) * 4096 < 2 ^ 32) :
    let result := mallocPages L.heapStart pages h
    result.1 % 4096 = 0 ∧ result.2.heapEnd = L.heapStart + 4096 + (pages + 1) * 4096 ∧
      ∃ y bs', result.1 = y + 5 ∧ Represents L result.2 bs' ∧
        Edit 9 L.heapStart h.mem result.2.mem [] bs' (fun _ => False)
          (fun z request => z = y ∧ request = 4096 * pages) ∧ Coalesced bs' ∧
        EndsUsed L result.2 bs' 4092 := by
  have low := L.heapStart_facts
  have finish : u32 (L.heapStart + 4096) = L.heapStart + 4096 := u32_of_lt (by omega)
  obtain ⟨h', h'Is⟩ : ∃ h', h' = { h with
    start := L.heapStart, endPtr := L.heapStart, heapEnd := L.heapStart + 4096,
    allocEnd := L.heapStart + 4096 } := ⟨_, rfl⟩
  have block : pagesBlock L.heapStart h = (L.heapStart, h') := by
    unfold pagesBlock allocPage
    simp only [empty.start, empty.allocEnd, ↓reduceIte, Nat.mul_one, finish, h'Is]
  have space : sub32 h'.heapEnd L.heapStart = 4096 := by
    rw [h'Is]
    simp only
    rw [sub32_of_le (by omega) (by omega)]
    omega
  have enough : pagesRoom L.heapStart L.heapStart h' = h' := by
    unfold pagesRoom
    simp only [space]
    rw [if_neg (by decide)]
  have heapEnd : h'.heapEnd = L.heapStart + 4096 := by rw [h'Is]
  have filled := fill_represents [] L.heapStart pages
    (show h'.start = L.heapStart by rw [h'Is]) (chain_nil _ _) (by simp) (by omega) (by omega) (by rw [h'Is]) (by omega)
  intro result
  have resultIs : result = pagesLast L.heapStart pages (pagesFill L.heapStart h') := by
    simp only [result, mallocPages, positive, ↓reduceIte, block, enough]
  rw [resultIs]
  obtain ⟨pointer, finish', bs', rep', edit, kept, ends⟩ := filled
  rw [pointer]
  have mem : h'.mem = h.mem := by rw [h'Is]
  rw [heapEnd] at finish'
  exact ⟨by omega, finish', h'.heapEnd - 5, bs', by omega, rep', mem ▸ edit,
    kept coalesced_nil usedLast_nil, ends⟩

/-- The heap end that `malloc` needs, following the branch it takes. -/
def mallocEnd (heapStart size : Nat) (h : Heap) : Nat :=
  if h.start = 0 then firstEnd heapStart size
  else
    match search h.mem h.endPtr size (2 ^ 32) h.start with
    | some none => grownEnd h.heapEnd (nextBlock h.mem h.endPtr) size
    | _ => h.heapEnd

theorem reuse_heapEnd (block size : Nat) (h : Heap) : (reuse block size h).2.heapEnd = h.heapEnd := by
  unfold reuse
  by_cases large : 13 ≤ sub32 (blockSize (setUsed h.mem block true) block) size
  · simp only [large, ↓reduceIte]
  · simp only [large, ↓reduceIte]

/-- On a heap with blocks `malloc` searches. -/
theorem Represents.used {bs : List Block} (rep : Represents L h bs) :
    ¬(h.start = 0 ∨ h.heapEnd ≤ h.start) := by
  have low := L.heapStart_facts
  have inside := rep.inside
  obtain ⟨⟨b, placed, _⟩, _⟩ := rep.last.bounds
  have bounds := place_bounds placed
  rw [rep.start]
  omega

theorem malloc_represents {bs : List Block} {size : Nat} (rep : Represents L h bs)
    (positive : size ≠ 0) (room : mallocEnd L.heapStart size h < 2 ^ 32) :
    ∃ x h' bs', malloc L.heapStart size h = some (x + 5, h') ∧ h.heapEnd ≤ h'.heapEnd ∧
      Represents L h' bs' ∧
      Edit 9 L.heapStart h.mem h'.mem bs bs' (fun _ => False)
        (fun y request => y = x ∧ request = size) ∧ (Coalesced bs → Coalesced bs') := by
  obtain ⟨start, used⟩ := not_or.mp rep.used
  obtain ⟨result, found, outcome⟩ := rep.search size
  unfold malloc
  unfold mallocEnd at room
  simp only [positive, used, start, or_self, ↓reduceIte, found] at room ⊢
  cases outcome with
  | hit front back b split free fit =>
      subst split
      have rep' : Represents L h (front ++ [b] ++ back) := by simpa using rep
      have reused := reuse_represents size rep' rfl fit
      have stays := reuse_heapEnd (L.heapStart + span 9 front) size h
      obtain ⟨⟨p, h'⟩, result⟩ :
        ∃ result, reuse (L.heapStart + span 9 front) size h = result := ⟨_, rfl⟩
      rw [result] at reused stays
      simp only [result]
      obtain ⟨pointer, rep'', same, _⟩ := reused
      simp only at pointer rep'' same stays
      subst pointer
      refine ⟨_, h', _, rfl, Nat.le_of_eq stays.symm, rep'', ?_, fun kept => carve_coalesced b size fit
        free (by simpa using kept)⟩
      have upper : back = [] ∨ (L.heapStart + span 9 front + (9 + b.size) =
          L.heapStart + span 9 front + span 9 [b] ∧
            span 9 (carve b size fit back) = span 9 [b]) := by
        by_cases tail : back = []
        · exact Or.inl tail
        · exact Or.inr ⟨by simp, by simpa using (carve_span b size fit back).2 tail⟩
      have edit := Edit.replace front [b] (carve b size fit back) _ (by decide : 0 < 9) (Eq.refl (L.heapStart + _)) same upper
      simp only [List.append_assoc, List.cons_append, List.nil_append] at edit ⊢
      refine edit.congr ?_ ?_
      · intro y
        simp [owned_cons, free]
      · intro y request
        rw [carve_owned]
  | miss =>
      rw [rep.lastBlock] at room
      have extended := extend_represents size rep rfl room
      obtain ⟨⟨p, h'⟩, result⟩ : ∃ result, extend L.heapStart size h = result := ⟨_, rfl⟩
      rw [result] at extended
      simp only [result]
      obtain ⟨pointer, rep', grown, same⟩ := extended
      simp only at pointer rep' same grown
      subst pointer
      have covers := (grownEnd_covers size rep.inside).2
      refine ⟨_, h', _, rfl, by omega, rep', ?_, fun kept => (coalesced_concat _ _).mpr
        ⟨kept, fun none => by cases none⟩⟩
      have edit := Edit.replace bs [] [.taken size size (Nat.le_refl size)] [] (by decide : 0 < 9)
        (Eq.refl (L.heapStart + _)) same
        (Or.inl rfl)
      simp only [List.append_nil] at edit
      apply edit.congr (by simp)
      intro y request
      simp only [owned_cons, Block.taken_owner, Option.some.injEq, owned_nil, or_false,
        @eq_comm _ size]

/-- Bytes inside a payload are no part of any header or trailing word. -/
theorem Represents.overwrite {bs : List Block} {x lo hi : Nat} {b : Block} {m : Memory}
    (rep : Represents L h bs) (placed : (x, b) ∈ place 9 L.heapStart bs) (lower : x + 5 ≤ lo)
    (upper : hi ≤ x + 5 + b.size) (same : SameOutside h.mem m lo hi) :
    Represents L { h with mem := m } bs := by
  refine ⟨rep.start, rep.last, ?_, rep.inside, rep.bound, rep.aligned, rep.agree⟩
  intro y d placed'
  have tagged := rep.chain y d placed'
  rcases place_apart placed placed' with ⟨rfl, rfl⟩ | apart | apart
  · refine ⟨?_, ?_, ?_⟩
    · rw [← tagged.used]
      show (m x != 0) = (h.mem x != 0)
      rw [same x (by omega)]
    · rw [same.load32 _ (by omega), tagged.size]
    · rw [same.load32 _ (by omega), tagged.trailing]
  · exact tagged.frame same (Or.inr (by omega))
  · exact tagged.frame same (Or.inl (by omega))

end Calls

end Snfos.DynamicAllocation
