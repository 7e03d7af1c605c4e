import Snfos.HeapClient

set_option autoImplicit false

/- `malloc` at the top of the address space, from any heap that is in order. -/
namespace Snfos.DynamicAllocation

open ByteMemory BlockChain

/-- A heap before its first call, or a chain of blocks below `heap_end`. -/
def WellFormed (L : Layout) (h : Heap) : Prop := Empty h ∨ ∃ bs, Represents L h bs

theorem Client.Sound.wellFormed {L : Layout} {c : Client} (sound : c.Sound L) :
    WellFormed L c.heap := by
  cases sound with
  | empty heap _ => exact Or.inl heap
  | blocks bs holds => exact Or.inr ⟨bs, holds.represents⟩

/-- The bytes at `p` and the trailing size word of their block lie below `heap_end`, in
pages that `alloc_page` handed out. -/
structure InRange (L : Layout) (p size : Nat) (h : Heap) : Prop where
  lower : L.heapStart + 5 ≤ p
  payload : p + size ≤ endingSizeField h.mem (sub32 p 5)
  trailing : endingSizeField h.mem (sub32 p 5) + 4 ≤ h.heapEnd
  bound : h.heapEnd < 2 ^ 32
  pages : h.heapEnd ≤ h.allocEnd

/-- The call ends, with NULL and a heap in order or with a block that is in range. -/
def MallocSafe (L : Layout) (size : Nat) (h : Heap) : Prop :=
  ∃ p h', malloc L.heapStart size h = some (p, h') ∧
    (p = 0 ∧ WellFormed L h' ∨ InRange L p size h')

section Limits

variable {L : Layout} {h : Heap} {bs : List Block}

/-- An owned block of a chain is in range. -/
theorem Represents.inRange {x size : Nat} (rep : Represents L h bs)
    (owned : Owned 9 L.heapStart bs x size) : InRange L (x + 5) size h := by
  obtain ⟨b, placed, owner⟩ := owned
  have fits := b.fits size owner
  have bounds := place_bounds placed
  have inside := rep.inside
  have bound := rep.bound
  have header : sub32 (x + 5) 5 = x := by
    rw [sub32_of_le (by omega) (by omega)]
    omega
  have field : endingSizeField h.mem (sub32 (x + 5) 5) = x + 5 + b.size := by
    rw [header, (rep.chain x b placed).endingSizeField (by omega)]
  refine ⟨by omega, ?_, ?_, bound, Nat.le_of_eq rep.agree.symm⟩
  · rw [field]
    omega
  · rw [field]
    omega

theorem malloc_in_range {size : Nat} (formed : WellFormed L h) (positive : size ≠ 0)
    (room : mallocEnd L.heapStart size h < 2 ^ 32) : MallocSafe L size h := by
  rcases formed with empty | ⟨bs, rep⟩
  · unfold mallocEnd at room
    rw [if_pos empty.start] at room
    obtain ⟨pointer, rep, _⟩ := firstBlock_represents size empty room
    have owned : Owned 9 L.heapStart [.taken size size (Nat.le_refl size)] L.heapStart size := by
      simp [owned_cons]
    refine ⟨(firstBlock L.heapStart size h).1, (firstBlock L.heapStart size h).2, ?_, Or.inr ?_⟩
    · unfold malloc
      rw [if_neg positive, if_pos (Or.inl empty.start)]
    · rw [pointer]
      exact rep.inRange owned
  · obtain ⟨x, h', bs', result, _, rep', edit, _⟩ := malloc_represents rep positive room
    exact ⟨_, h', result, Or.inr (rep'.inRange ((edit.owned x size).mpr (Or.inr ⟨rfl, rfl⟩)))⟩

/-- On an empty heap a request past the addresses gets fewer pages than it needs. -/
theorem firstBlock_out_of_range {size : Nat} (empty : Empty h)
    (far : 2 ^ 32 ≤ firstEnd L.heapStart size) :
    (firstBlock L.heapStart size h).1 = L.heapStart + 5 ∧
      (firstBlock L.heapStart size h).2.heapEnd < L.heapStart + 9 + size := by
  have low := L.heapStart_facts
  have block : (allocPage L.heapStart (numPages h.start (endBlock h.start size)) h).1 = L.heapStart := by
    unfold allocPage
    rw [if_pos empty.allocEnd]
  have pointer : u32 (L.heapStart + 5) = L.heapStart + 5 := u32_of_lt (by omega)
  unfold firstBlock
  dsimp only
  rw [block, pointer]
  refine ⟨rfl, ?_⟩
  unfold firstEnd at far
  by_cases past : 2 ^ 32 ≤ L.heapStart + 9 + size
  · exact Nat.lt_of_lt_of_le (u32_lt _) past
  · -- the last page ends at `2 ^ 32`, which `heap_end` holds as 0
    have finish : endBlock L.heapStart size = L.heapStart + 9 + size := by
      unfold endBlock
      rw [u32_of_lt (by omega)]
      omega
    have pages : numPages L.heapStart (L.heapStart + 9 + size) = (size + 9 + 4095) / 4096 := by
      rw [numPages_eq (by omega) (by omega)]
      omega
    rw [finish, pages, u32_of_lt (n := 4096 * _) (by omega)]
    unfold u32
    omega

/-- And so does one that would go past the last block. -/
theorem extend_out_of_range {size : Nat} (rep : Represents L h bs)
    (far : 2 ^ 32 ≤ grownEnd h.heapEnd (L.heapStart + span 9 bs) size) :
    (extend L.heapStart size h).1 = L.heapStart + span 9 bs + 5 ∧
      (extend L.heapStart size h).2.heapEnd < L.heapStart + span 9 bs + 9 + size := by
  have low := L.heapStart_facts
  have inside := rep.inside
  have bound := rep.bound
  have aligned := rep.aligned
  obtain ⟨x, here⟩ : ∃ x, x = L.heapStart + span 9 bs := ⟨_, rfl⟩
  have block : nextBlock h.mem h.endPtr = x := by rw [rep.lastBlock, here]
  have pointer : u32 (x + 5) = x + 5 := u32_of_lt (by omega)
  rw [← here] at far inside ⊢
  have wide : h.heapEnd < x + 9 + size := by
    unfold grownEnd at far
    split at far
    · assumption
    · omega
  unfold extend
  dsimp only
  rw [block, pointer]
  by_cases more : h.heapEnd < endBlock x size
  · rw [if_pos more]
    refine ⟨rfl, ?_⟩
    by_cases past : 2 ^ 32 ≤ x + 9 + size
    · exact Nat.lt_of_lt_of_le (u32_lt _) past
    · have finish : endBlock x size = x + 9 + size := by
        unfold endBlock
        rw [u32_of_lt (by omega)]
        omega
      unfold grownEnd at far
      rw [if_pos wide] at far
      show u32 (h.heapEnd + u32 (numPages x (endBlock x size) * 4096)) < _
      rw [finish, numPages_eq (by omega) (by omega),
        u32_of_lt (n := _ * 4096) (by omega)]
      unfold u32
      omega
  · rw [if_neg more]
    exact ⟨rfl, wide⟩

/-- What the search of `malloc` comes to on a chain, and the heap end it asks for. -/
theorem Represents.malloc_cases (rep : Represents L h bs) {size : Nat} (positive : size ≠ 0) :
    mallocEnd L.heapStart size h < 2 ^ 32 ∨
      malloc L.heapStart size h = some (extend L.heapStart size h) ∧
        mallocEnd L.heapStart size h = grownEnd h.heapEnd (L.heapStart + span 9 bs) size := by
  obtain ⟨result, found, _⟩ := rep.search size
  unfold mallocEnd malloc
  rw [if_neg fun zero => rep.used (Or.inl zero), if_neg positive, if_neg rep.used, found]
  cases result with
  | some block => exact Or.inl rep.bound
  | none => exact Or.inr ⟨rfl, by rw [rep.lastBlock]⟩

/-- Past the addresses `malloc` still returns a block, one that `heap_end` does not cover. -/
theorem malloc_out_of_range {size : Nat} (formed : WellFormed L h) (positive : size ≠ 0)
    (far : 2 ^ 32 ≤ mallocEnd L.heapStart size h) :
    ∃ x h', malloc L.heapStart size h = some (x + 5, h') ∧ h'.heapEnd < x + 9 + size ∧
      h'.heapEnd < 2 ^ 32 := by
  rcases formed with empty | ⟨bs, rep⟩
  · have result : malloc L.heapStart size h = some (firstBlock L.heapStart size h) := by
      unfold malloc
      rw [if_neg positive, if_pos (Or.inl empty.start)]
    unfold mallocEnd at far
    rw [if_pos empty.start] at far
    obtain ⟨pointer, short⟩ := firstBlock_out_of_range empty far
    exact ⟨_, _, result.trans (congrArg some (Prod.ext pointer rfl)), short, u32_lt _⟩
  · rcases rep.malloc_cases positive with near | ⟨extended, finish⟩
    · omega
    · rw [finish] at far
      obtain ⟨pointer, short⟩ := extend_out_of_range rep far
      refine ⟨_, _, extended.trans (congrArg some (Prod.ext pointer rfl)), short, ?_⟩
      unfold extend
      dsimp only
      split
      · exact u32_lt _
      · exact rep.bound

/-- `malloc` is safe exactly where the pages it needs end below `2 ^ 32`. -/
theorem malloc_safe_iff (L : Layout) (h : Heap) (formed : WellFormed L h) (size : Nat)
    (positive : 0 < size) :
    MallocSafe L size h ↔ mallocEnd L.heapStart size h < 2 ^ 32 := by
  refine ⟨fun safe => ?_, malloc_in_range formed (by omega)⟩
  by_contra far
  obtain ⟨p, h', result, outcome⟩ := safe
  obtain ⟨x, other, again, short, _⟩ := malloc_out_of_range formed (by omega) (Nat.not_lt.mp far)
  rw [result, Option.some.injEq, Prod.mk.injEq] at again
  obtain ⟨rfl, rfl⟩ := again
  rcases outcome with ⟨null, _⟩ | range
  · omega
  · have payload := range.payload
    have trailing := range.trailing
    omega

end Limits

/-- A free block between two that are held takes eight bytes. -/
theorem malloc_safe_between : ∃ c : Client, c.live = [(0xC0122047, 8), (0xC0122005, 8)] ∧
    search c.heap.mem c.heap.endPtr 8 (2 ^ 32) c.heap.start = some (some 0xC0122011) ∧
    MallocSafe Client.sampleLayout 8 c.heap := by
  obtain ⟨c, run, held, found, room⟩ := Client.exists_runs (Client.Allowed Client.sampleLayout)
    (fun c => c.live = [(0xC0122047, 8), (0xC0122005, 8)] ∧
      search c.heap.mem c.heap.endPtr 8 (2 ^ 32) c.heap.start = some (some 0xC0122011) ∧
      mallocEnd Client.sampleLayout.heapStart 8 c.heap < 2 ^ 32)
    (show (Client.perform (Client.Allowed Client.sampleLayout) Client.sampleLayout
      (Client.boot fun _ => 0) Client.sampleCalls).any _ = true by decide +kernel)
  have sound := Client.runs_sound run (Client.boot_sound Client.sampleLayout _)
  exact ⟨c, held, found,
    (malloc_safe_iff Client.sampleLayout c.heap sound.wellFormed 8 (by decide)).mpr room⟩

/-- A request for `2 ^ 32 - 1` bytes gets one page. -/
theorem malloc_everything :
    WellFormed lowLayout ⟨fun _ => 0, 0, 0, 0, 0⟩ ∧
      (firstBlock lowLayout.heapStart 0xFFFFFFFF ⟨fun _ => 0, 0, 0, 0, 0⟩).2.allocEnd =
        lowLayout.heapStart + 4096 ∧
      ¬MallocSafe lowLayout 0xFFFFFFFF ⟨fun _ => 0, 0, 0, 0, 0⟩ := by
  refine ⟨Or.inl ⟨rfl, rfl, rfl, rfl⟩, by decide, ?_⟩
  rintro ⟨p, h', result, outcome⟩
  unfold malloc at result
  rw [if_neg (by decide), if_pos (Or.inl rfl), Option.some.injEq] at result
  have pointer : 0xC0000000 ≤ p := by
    rw [← show (firstBlock lowLayout.heapStart 0xFFFFFFFF ⟨fun _ => 0, 0, 0, 0, 0⟩).1 = p from
      congrArg Prod.fst result]
    decide
  rcases outcome with ⟨null, _⟩ | range
  · omega
  · have payload := range.payload
    have trailing := range.trailing
    have bound := range.bound
    omega

end Snfos.DynamicAllocation
