import Snfos.HeapChain

set_option autoImplicit false

namespace Snfos.DynamicAllocation

open ByteMemory BlockChain

section Search

variable {m : Memory} {finish size : Nat}

/-- What the search returns: a free block that is large enough, or nothing. -/
inductive Found (size x : Nat) (bs : List Block) : Option Nat → Prop
  | hit (front back : List Block) (b : Block) (split : bs = front ++ b :: back)
      (free : b.owner = none) (fit : size ≤ b.size) :
      Found size x bs (some (x + span 9 front))
  | miss : Found size x bs none

/-- Nine bytes a block at least, so the chain is shorter than the address space
and the search ends. Induction follows the blocks still ahead. -/
theorem search_chain (x fuel : Nat) (bs : List Block) (chain : Chain 9 (Tagged m) x bs)
    (before : ∀ y b, (y, b) ∈ place 9 x bs → y ≤ finish) (after : finish < x + span 9 bs)
    (bound : x + span 9 bs < 2 ^ 32) (enough : bs.length < fuel) :
    ∃ result, search m finish size fuel x = some result ∧ Found size x bs result := by
  induction bs generalizing x fuel with
  | nil =>
      obtain ⟨fuel, rfl⟩ : ∃ k, fuel = k + 1 := ⟨fuel - 1, by simp at enough; omega⟩
      simp only [span_nil, Nat.add_zero] at after
      refine ⟨none, ?_, .miss⟩
      rw [search, if_neg (by omega)]
  | cons b bs ih =>
      obtain ⟨fuel, rfl⟩ : ∃ k, fuel = k + 1 := ⟨fuel - 1, by simp at enough; omega⟩
      obtain ⟨tagged, rest⟩ := (chain_cons _ _ _ _).mp chain
      have here : x ≤ finish := before x b (by simp)
      simp only [span_cons] at after bound
      have fits : x + (9 + b.size) < 2 ^ 32 := by omega
      rw [search, if_pos here, tagged.blockSize fits, tagged.used, tagged.nextBlock fits]
      by_cases stop : b.owner.isSome = false ∧ size ≤ b.size
      · rw [if_pos stop]
        refine ⟨some x, rfl, ?_⟩
        have free : b.owner = none := by simpa using stop.1
        simpa using Found.hit (x := x) [] bs b rfl free stop.2
      · rw [if_neg stop]
        obtain ⟨result, found, outcome⟩ := ih (x + (9 + b.size)) fuel rest
          (fun y c placed => before y c (by simp [placed])) (by omega) (by omega)
          (by simp only [List.length_cons] at enough; omega)
        refine ⟨result, found, ?_⟩
        cases outcome with
        | hit front back c split free fit =>
            subst split
            have place : x + (9 + b.size) + span 9 front = x + span 9 (b :: front) := by
              simp only [span_cons]
              omega
            rw [place]
            exact .hit (b :: front) back c rfl free fit
        | miss => exact .miss

end Search

theorem length_le_span (bs : List Block) : 9 * bs.length ≤ span 9 bs := by
  induction bs with
  | nil => simp
  | cons b bs ih =>
      simp only [List.length_cons, span_cons]
      omega

theorem Represents.search {L : Layout} {h : Heap} {bs : List Block} (rep : Represents L h bs)
    (size : Nat) :
    ∃ result, DynamicAllocation.search h.mem h.endPtr size (2 ^ 32) h.start = some result ∧
      Found size L.heapStart bs result := by
  have inside := rep.inside
  have bound := rep.bound
  have short := length_le_span bs
  obtain ⟨⟨b, _, finish⟩, before⟩ := rep.last.bounds
  rw [rep.start]
  exact search_chain L.heapStart (2 ^ 32) bs rep.chain before (by omega) (by omega) (by omega)

/-- The blocks `malloc` leaves where it found the free block `b`. A remainder is
recorded only when other blocks follow; past the last block it is not tracked. -/
def carve (b : Block) (size : Nat) (fit : size ≤ b.size) (tail : List Block) : List Block :=
  if 13 ≤ b.size - size then
    .taken size size (Nat.le_refl size) ::
      (if tail = [] then [] else [.free (b.size - size - 9)])
  else [.taken b.size size fit]

theorem carve_span (b : Block) (size : Nat) (fit : size ≤ b.size) (tail : List Block) :
    span 9 (carve b size fit tail) ≤ 9 + b.size ∧
      (tail ≠ [] → span 9 (carve b size fit tail) = 9 + b.size) := by
  unfold carve
  split
  · by_cases last : tail = []
    · subst last
      simp only [↓reduceIte, span_cons, span_nil, Block.taken_size]
      exact ⟨by omega, fun more => absurd rfl more⟩
    · simp only [last, ↓reduceIte, span_cons, span_nil, Block.taken_size, Block.free_size]
      exact ⟨by omega, fun _ => by omega⟩
  · simp

/-- The only owned block of what `carve` leaves is the one handed out. -/
theorem carve_owned (b : Block) (size : Nat) (fit : size ≤ b.size) (tail : List Block)
    (a x request : Nat) :
    Owned 9 a (carve b size fit tail) x request ↔ x = a ∧ request = size := by
  unfold carve
  split
  · by_cases last : tail = []
    · simp [last, owned_cons, eq_comm]
    · simp [last, owned_cons, eq_comm]
  · simp [owned_cons, eq_comm]

theorem carve_coalesced {front tail : List Block} (b : Block) (size : Nat) (fit : size ≤ b.size)
    (free : b.owner = none) (kept : Coalesced (front ++ [b] ++ tail)) :
    Coalesced (front ++ carve b size fit tail ++ tail) := by
  obtain ⟨before, after, beside⟩ := (coalesced_middle front tail b).mp kept
  have taken : ∀ (size request : Nat) (fits : request ≤ size),
      (Block.taken size request fits).owner ≠ none := fun _ _ _ none => by cases none
  unfold carve
  split
  · by_cases last : tail = []
    · rw [if_pos last]
      exact (coalesced_middle _ _ _).mpr ⟨before, after, fun none => absurd none (taken _ _ _)⟩
    · rw [if_neg last, List.append_cons, List.append_assoc _ _ tail]
      refine (coalesced_middle _ _ _).mpr ⟨before, ?_, fun none => absurd none (taken _ _ _)⟩
      exact (coalesced_cons _ _).mpr ⟨after, fun _ => (beside free).2⟩
  · exact (coalesced_middle _ _ _).mpr ⟨before, after, fun none => absurd none (taken _ _ _)⟩

/-- Splitting in memory: two blocks described, nothing written outside `b`. -/
theorem tagged_split {m : Memory} {x : Nat} {b : Block} (size : Nat) (tagged : Tagged m x b)
    (room : size + 13 ≤ b.size) (bound : x + (9 + b.size) < 2 ^ 32) :
    let first := setEndingSize (setSize (setUsed m x true) x size) x size
    let next := nextBlock first x
    let second := setSize (setUsed first next false) next
      (sub32 (sub32 (sub32 (blockSize (setUsed m x true) x) size) 5) 4)
    let final := setEndingSize second next (blockSize second next)
    Tagged final x (.taken size size (Nat.le_refl size)) ∧
      Tagged final (x + (9 + size)) (.free (b.size - size - 9)) ∧
      SameOutside m final x (x + (9 + b.size)) ∧
      ∀ a, x + 5 ≤ a → a < x + 5 + size → final a = m a := by
  intro first next second final
  have kept : Tagged (setUsed m x true) x (.taken b.size b.size (Nat.le_refl _)) :=
    tagged.setUsed (.taken b.size b.size (Nat.le_refl _)) rfl
  have oldSize : blockSize (setUsed m x true) x = b.size := kept.blockSize bound
  have remainder : sub32 (sub32 (sub32 (blockSize (setUsed m x true) x) size) 5) 4 =
      b.size - size - 9 := by
    rw [oldSize, sub32_of_le (a := b.size) (by omega) (by omega),
      sub32_of_le (a := b.size - size) (by omega) (by omega),
      sub32_of_le (by omega) (by omega)]
    omega
  obtain ⟨front, frontFrame⟩ :=
    tagged_write m x (.taken size size (Nat.le_refl size)) (by simp only [Block.taken_size]; omega)
  have nextIs : next = x + (9 + size) := front.nextBlock (by simp only [Block.taken_size]; omega)
  have write := tagged_write first next (.free (b.size - size - 9))
    (by simp only [Block.free_size]; omega)
  have secondIs : second =
      setSize (setUsed first next false) next (b.size - size - 9) := by
    simp only [second, remainder]
  have finalIs : final = setEndingSize
      (setSize (setUsed first next false) next (b.size - size - 9)) next
        (b.size - size - 9) := by
    have sized : blockSize second next = b.size - size - 9 := by
      rw [secondIs, blockSize_setSize _ _ _ (by omega)]
    change setEndingSize second next (blockSize second next) = _
    rw [sized, secondIs]
  rw [finalIs, ← nextIs]
  refine ⟨front.frame write.2 (Or.inl ?_), write.1, ?_, ?_⟩
  · simp only [Block.taken_size]
    omega
  · refine (frontFrame.mono (Nat.le_refl x) ?_).trans (write.2.mono ?_ ?_)
    · simp only [Block.taken_size]
      omega
    · omega
    · simp only [Block.free_size]
      omega
  · intro a lower upper
    apply (write.2 a (Or.inl (by omega))).trans
    exact write_payload m x true (by omega) lower upper

section Steps

variable {L : Layout} {h : Heap}

theorem reuse_represents {front back : List Block} {b : Block} {x : Nat} (size : Nat)
    (rep : Represents L h (front ++ [b] ++ back)) (here : x = L.heapStart + span 9 front)
    (fit : size ≤ b.size) :
    (reuse x size h).1 = x + 5 ∧
      Represents L (reuse x size h).2 (front ++ carve b size fit back ++ back) ∧
      SameOutside h.mem (reuse x size h).2.mem x (x + (9 + b.size)) ∧
      ∀ a, x + 5 ≤ a → a < x + 5 + size → (reuse x size h).2.mem a = h.mem a := by
  have inside := rep.inside
  have hbound := rep.bound
  simp only [span_append, span_cons, span_nil] at inside
  have bound : x + (9 + b.size) < 2 ^ 32 := by omega
  have tagged : Tagged h.mem x b := rep.chain x b (by simp [here])
  have kept : Tagged (setUsed h.mem x true) x (.taken b.size size fit) :=
    tagged.setUsed (.taken b.size size fit) rfl
  have leftover : sub32 (blockSize (setUsed h.mem x true) x) size = b.size - size := by
    rw [kept.blockSize bound, Block.taken_size, sub32_of_le fit (by omega)]
  have pointer : u32 (x + 5) = x + 5 := u32_of_lt (by omega)
  obtain ⟨shorter, equal⟩ := carve_span b size fit back
  have last : Ends 9 L.heapStart (front ++ carve b size fit back ++ back) h.endPtr := by
    by_cases tail : back = []
    · subst tail
      have finish := rep.last
      simp only [List.append_nil] at finish ⊢
      rw [finish.eq_span]
      unfold carve
      split
      · simpa using ends_concat L.heapStart front (.taken size size (Nat.le_refl size))
      · exact ends_concat L.heapStart front _
    · exact rep.last.replace tail (by simpa using equal tail)
  have extent : L.heapStart + span 9 (front ++ carve b size fit back ++ back) ≤ h.heapEnd := by
    simp only [span_append]
    omega
  have upper : back = [] ∨ (x + (9 + b.size) = x + span 9 [b] ∧
      span 9 (carve b size fit back) = span 9 [b]) := by
    by_cases tail : back = []
    · exact Or.inl tail
    · exact Or.inr ⟨by simp, by simpa using equal tail⟩
  by_cases room : 13 ≤ b.size - size
  · obtain ⟨first, second, same, payload⟩ := tagged_split size tagged (by omega) bound
    have splits : 13 ≤ sub32 (blockSize (setUsed h.mem x true) x) size := by
      rw [leftover]
      exact room
    unfold reuse
    simp only [splits, ↓reduceIte]
    refine ⟨pointer, ?_, same, payload⟩
    refine rep.replace _ _ same here upper ?_ rfl last extent rep.bound rep.aligned rep.agree
    unfold carve
    simp only [room, ↓reduceIte, chain_cons, Block.taken_size]
    refine ⟨first, ?_⟩
    split
    · exact chain_nil _ _
    · exact (chain_cons _ _ _ _).mpr ⟨second, chain_nil _ _⟩
  · have whole : ¬ 13 ≤ sub32 (blockSize (setUsed h.mem x true) x) size := by
      rw [leftover]
      exact room
    unfold reuse
    simp only [whole, ↓reduceIte]
    have same : SameOutside h.mem (setUsed h.mem x true) x (x + (9 + b.size)) :=
      sameOutside_setUsed h.mem x true _ (by omega)
    have payload : ∀ a, x + 5 ≤ a → a < x + 5 + size → setUsed h.mem x true a = h.mem a :=
      fun a lower _ => store8_ne _ _ _ _ (by omega)
    refine ⟨pointer, ?_, same, payload⟩
    refine rep.replace _ _ same here upper ?_ rfl last extent rep.bound rep.aligned rep.agree
    unfold carve
    simp only [room, ↓reduceIte]
    exact (chain_cons _ _ _ _).mpr ⟨kept, chain_nil _ _⟩

theorem allocPage_grown (heapStart pages : Nat) (h : Heap) (mapped : h.allocEnd ≠ 0)
    (bound : h.allocEnd + 4096 * pages < 2 ^ 32) :
    allocPage heapStart pages h =
      (h.allocEnd, { h with allocEnd := h.allocEnd + 4096 * pages }) := by
  simp only [allocPage, mapped, ↓reduceIte, u32_of_lt bound]

/-- `heap_end` after a block of `size` bytes at `block`, without wrap-around. -/
def grownEnd (heapEnd block size : Nat) : Nat :=
  if heapEnd < block + 9 + size then
    heapEnd + 4096 * ((block + 9 + size + 4095) / 4096 - block / 4096)
  else heapEnd

theorem grownEnd_covers {heapEnd block : Nat} (size : Nat) (order : block ≤ heapEnd) :
    block + 9 + size ≤ grownEnd heapEnd block size ∧
      heapEnd ≤ grownEnd heapEnd block size := by
  unfold grownEnd
  split <;> omega

theorem Represents.lastBlock {bs : List Block} (rep : Represents L h bs) :
    nextBlock h.mem h.endPtr = L.heapStart + span 9 bs := by
  have inside := rep.inside
  have bound := rep.bound
  obtain ⟨⟨b, placed, finish⟩, _⟩ := rep.last.bounds
  rw [(rep.chain _ _ placed).nextBlock (by omega), finish]

theorem extend_represents {bs : List Block} {x : Nat} (size : Nat) (rep : Represents L h bs)
    (here : x = L.heapStart + span 9 bs) (room : grownEnd h.heapEnd x size < 2 ^ 32) :
    (extend L.heapStart size h).1 = x + 5 ∧
      Represents L (extend L.heapStart size h).2
        (bs ++ [.taken size size (Nat.le_refl size)]) ∧
      (extend L.heapStart size h).2.heapEnd = grownEnd h.heapEnd x size ∧
      SameOutside h.mem (extend L.heapStart size h).2.mem x (x + (9 + size)) := by
  have inside : x ≤ h.heapEnd := here ▸ rep.inside
  have aligned := rep.aligned
  have agree := rep.agree
  have low := L.heapStart_facts
  have block : nextBlock h.mem h.endPtr = x := by rw [rep.lastBlock, here]
  obtain ⟨covers, grows⟩ := grownEnd_covers size inside
  have finish : endBlock x size = x + 9 + size := by
    unfold endBlock
    rw [u32_of_lt (by omega)]
    omega
  have pages : numPages x (x + 9 + size) = (x + 9 + size + 4095) / 4096 - x / 4096 :=
    numPages_eq (by omega) (by omega)
  have written := tagged_write h.mem x (.taken size size (Nat.le_refl size))
    (by simp only [Block.taken_size]; omega)
  simp only [Block.taken_size, Block.taken_owner, Option.isSome_some] at written
  have pointer : u32 (x + 5) = x + 5 := u32_of_lt (by omega)
  have placed : ∀ h' : Heap,
      h'.mem = setEndingSize (setSize (setUsed h.mem x true) x size) x size →
      h'.start = h.start → h'.endPtr = x → h'.heapEnd = grownEnd h.heapEnd x size →
      h'.allocEnd = h'.heapEnd →
      Represents L h' (bs ++ [.taken size size (Nat.le_refl size)]) := by
    intro h' mem start last heapEnd allocEnd
    have whole : Represents L h (bs ++ [] ++ []) := by simpa using rep
    have edit := whole.replace h' [.taken size size (Nat.le_refl size)]
      (mem ▸ written.2) here (Or.inl rfl)
      ((chain_cons _ _ _ _).mpr ⟨mem ▸ written.1, chain_nil _ _⟩) start
    simp only [List.append_nil] at edit
    refine edit ?_ ?_ (heapEnd ▸ room) ?_ allocEnd
    · rw [last, here]
      exact ends_concat _ _ _
    · simp only [span_append, span_cons, span_nil, Block.taken_size, heapEnd]
      omega
    · rw [heapEnd]
      unfold grownEnd
      split <;> omega
  unfold extend
  simp only [block, finish]
  by_cases more : h.heapEnd < x + 9 + size
  · have grown : grownEnd h.heapEnd x size =
        h.heapEnd + 4096 * ((x + 9 + size + 4095) / 4096 - x / 4096) := by
      simp only [grownEnd, more, ↓reduceIte]
    have product : u32 (((x + 9 + size + 4095) / 4096 - x / 4096) * 4096) =
        4096 * ((x + 9 + size + 4095) / 4096 - x / 4096) := by
      rw [u32_of_lt (by omega), Nat.mul_comm]
    have added : u32 (h.heapEnd + 4096 * ((x + 9 + size + 4095) / 4096 - x / 4096)) =
        grownEnd h.heapEnd x size := by
      rw [← grown, u32_of_lt room]
    have alloc := allocPage_grown L.heapStart ((x + 9 + size + 4095) / 4096 - x / 4096)
      { h with endPtr := x } (by simp only; omega) (by simp only; omega)
    simp only [more, ↓reduceIte, pages, product, alloc, added]
    refine ⟨pointer, placed _ rfl rfl rfl rfl ?_, trivial, written.2⟩
    rw [agree, grown]
  · have kept : grownEnd h.heapEnd x size = h.heapEnd := by
      simp only [grownEnd, more, ↓reduceIte]
    simp only [more, ↓reduceIte]
    exact ⟨pointer, placed _ rfl rfl rfl kept.symm agree, kept.symm, written.2⟩

theorem Represents.isLast {front back : List Block} {b : Block} {x : Nat}
    (rep : Represents L h (front ++ [b] ++ back)) (here : x = L.heapStart + span 9 front) :
    x = h.endPtr ↔ back = [] := by
  constructor
  · intro last
    by_contra tail
    obtain ⟨c, rest, rfl⟩ := List.exists_cons_of_ne_nil tail
    have later := rep.last.bounds.2 (L.heapStart + span 9 (front ++ [b])) c
      (mem_place_middle _ _ _ _)
    simp only [span_append, span_cons, span_nil] at later
    omega
  · rintro rfl
    have finish := rep.last
    rw [List.append_nil] at finish
    rw [finish.eq_span, here]

/-- Both merges make one free block out of two neighbours that are free. -/
theorem merge_represents (h' : Heap) {front back : List Block} {b c : Block} {x : Nat}
    (rep : Represents L h (front ++ [b, c] ++ back)) (here : x = L.heapStart + span 9 front)
    (bfree : b.owner = none) (cfree : c.owner = none)
    (mem : h'.mem = setEndingSize (setSize h.mem x (b.size + 9 + c.size)) x
      (b.size + 9 + c.size))
    (last : h'.endPtr = if back = [] then x else h.endPtr) (start : h'.start = h.start)
    (heapEnd : h'.heapEnd = h.heapEnd) (allocEnd : h'.allocEnd = h.allocEnd) :
    Represents L h' (front ++ [.free (b.size + 9 + c.size)] ++ back) ∧
      Edit 9 L.heapStart h.mem h'.mem (front ++ [b, c] ++ back)
        (front ++ [.free (b.size + 9 + c.size)] ++ back) (fun _ => False)
        (fun _ _ => False) := by
  have inside := rep.inside
  have bound := rep.bound
  simp only [span_append, span_cons, span_nil] at inside
  have tagged : Tagged h.mem x b := rep.chain x b (by simp [here])
  have written := tagged_resize (m := h.mem) (x := x) (.free (b.size + 9 + c.size))
    (by rw [tagged.used, bfree]; rfl) (by simp only [Block.free_size]; omega)
  simp only [Block.free_size] at written
  rw [← mem] at written
  have extent : span 9 [.free (b.size + 9 + c.size)] = span 9 [b, c] := by
    simp only [span_cons, span_nil, Block.free_size]
    omega
  have upper : back = [] ∨ (x + (9 + (b.size + 9 + c.size)) = x + span 9 [b, c] ∧
      span 9 [.free (b.size + 9 + c.size)] = span 9 [b, c]) :=
    Or.inr ⟨by simp only [span_cons, span_nil]; omega, extent⟩
  refine ⟨rep.replace _ _ written.2 here upper ?_ start ?_ ?_ ?_ ?_ ?_, ?_⟩
  · exact (chain_cons _ _ _ _).mpr ⟨written.1, chain_nil _ _⟩
  · rw [last]
    split
    · rename_i none
      subst none
      rw [List.append_nil, here]
      exact ends_concat _ _ _
    · rename_i tail
      exact rep.last.replace tail extent
  · rw [heapEnd]
    simp only [span_append, span_cons, span_nil, Block.free_size]
    omega
  · rw [heapEnd]
    exact bound
  · rw [heapEnd]
    exact rep.aligned
  · rw [allocEnd, heapEnd]
    exact rep.agree
  · refine (Edit.replace _ _ _ _ (by decide) here written.2 upper).congr ?_ ?_
    · intro y
      simp [owned_cons, bfree, cfree]
    · intro y request
      simp [owned_cons]

theorem mergeNext_represents {front back : List Block} {b : Block} {x : Nat}
    (rep : Represents L h (front ++ [b] ++ back)) (here : x = L.heapStart + span 9 front)
    (free : b.owner = none) :
    ∃ c back', c.owner = none ∧ Represents L (mergeNext x h) (front ++ [c] ++ back') ∧
      Edit 9 L.heapStart h.mem (mergeNext x h).mem (front ++ [b] ++ back)
        (front ++ [c] ++ back') (fun _ => False) (fun _ _ => False) ∧
      (Coalesced back → Coalesced back' ∧ UsedFirst back') := by
  by_cases alone : back = []
  · have unchanged : mergeNext x h = h := by
      unfold mergeNext
      rw [if_neg fun guard => guard.1 ((rep.isLast here).mpr alone)]
    refine ⟨b, back, free, by rwa [unchanged], by rw [unchanged]; exact .refl _, fun kept => ?_⟩
    rw [alone]
    exact ⟨coalesced_nil, usedFirst_nil⟩
  · obtain ⟨c, rest, rfl⟩ := List.exists_cons_of_ne_nil alone
    have inside := rep.inside
    have bound := rep.bound
    simp only [span_append, span_cons, span_nil] at inside
    have more : x ≠ h.endPtr := fun last => alone ((rep.isLast here).mp last)
    have tagged : Tagged h.mem x b := rep.chain x b (by simp [here])
    have next : nextBlock h.mem x = x + (9 + b.size) := tagged.nextBlock (by omega)
    have taggedNext : Tagged h.mem (x + (9 + b.size)) c :=
      rep.chain _ c (by simp [here, Nat.add_assoc])
    by_cases nextFree : c.owner = none
    · have rep' : Represents L h (front ++ [b, c] ++ rest) := by simpa using rep
      have guard : x ≠ h.endPtr ∧ blockUsed h.mem (nextBlock h.mem x) = false := by
        rw [next, taggedNext.used, nextFree]
        exact ⟨more, rfl⟩
      have total : u32 (blockSize h.mem x + (4 + 5 + blockSize h.mem (nextBlock h.mem x))) =
          b.size + 9 + c.size := by
        rw [next, tagged.blockSize (by omega), taggedNext.blockSize (by omega),
          u32_of_lt (by omega)]
        omega
      have finish : (if nextBlock h.mem x = h.endPtr then x else h.endPtr) =
          if rest = [] then x else h.endPtr := by
        have rep'' : Represents L h ((front ++ [b]) ++ [c] ++ rest) := by simpa using rep
        have atEnd := rep''.isLast (x := x + (9 + b.size))
          (by simp only [span_append, span_cons, span_nil]; omega)
        rw [next]
        simp only [atEnd]
      have merged := merge_represents (mergeNext x h) rep' here free nextFree
        (by
          unfold mergeNext
          rw [if_pos guard]
          simp only [total]
          rw [blockSize_setSize _ _ _ (by omega)])
        (by unfold mergeNext; rw [if_pos guard]; exact finish)
        (by unfold mergeNext; rw [if_pos guard])
        (by unfold mergeNext; rw [if_pos guard])
        (by unfold mergeNext; rw [if_pos guard])
      refine ⟨.free (b.size + 9 + c.size), rest, rfl, merged.1, by simpa using merged.2, fun kept => ?_⟩
      obtain ⟨after, beside⟩ := (coalesced_cons c rest).mp kept
      exact ⟨after, beside nextFree⟩
    · have unchanged : mergeNext x h = h := by
        unfold mergeNext
        rw [if_neg]
        rintro ⟨_, unused⟩
        rw [next, taggedNext.used] at unused
        exact nextFree (by simpa using unused)
      exact ⟨b, c :: rest, free, by rwa [unchanged], by rw [unchanged]; exact .refl _,
        fun kept => ⟨kept, usedFirst_cons nextFree rest⟩⟩

theorem mergePrev_represents {front back : List Block} {b : Block} {x : Nat}
    (rep : Represents L h (front ++ [b] ++ back)) (here : x = L.heapStart + span 9 front)
    (free : b.owner = none) :
    ∃ bs', Represents L (mergePrev x h) bs' ∧
      Edit 9 L.heapStart h.mem (mergePrev x h).mem (front ++ [b] ++ back) bs'
        (fun _ => False) (fun _ _ => False) ∧
      (Coalesced front → Coalesced back → UsedFirst back → Coalesced bs') := by
  rcases front.eq_nil_or_concat with rfl | ⟨front, c, rfl⟩
  · have unchanged : mergePrev x h = h := by
      unfold mergePrev
      rw [if_neg fun guard => guard.1 (by rw [rep.start, here, span_nil, Nat.add_zero])]
    refine ⟨_, by rwa [unchanged], by rw [unchanged]; exact .refl _, fun before after used => ?_⟩
    exact (coalesced_middle _ _ _).mpr ⟨before, after, fun _ => ⟨usedLast_nil, used⟩⟩
  · rw [List.concat_eq_append] at rep here ⊢
    obtain ⟨z, before⟩ : ∃ z, z = L.heapStart + span 9 front := ⟨_, rfl⟩
    have inside := rep.inside
    have bound := rep.bound
    simp only [span_append, span_cons, span_nil] at inside here
    have place : x = z + (9 + c.size) := by omega
    have later : x ≠ h.start := by
      rw [rep.start]
      omega
    have tagged : Tagged h.mem x b := rep.chain x b (by
      rw [show x = L.heapStart + span 9 (front ++ [c]) by
        simp only [span_append, span_cons, span_nil]; omega]
      exact mem_place_single _ _ _ _)
    have taggedPrev : Tagged h.mem z c := rep.chain z c (by simp [before])
    have prev : prevBlock h.mem x = z := by rw [place, taggedPrev.prevBlock (by omega)]
    by_cases prevFree : c.owner = none
    · have rep' : Represents L h (front ++ [c, b] ++ back) := by simpa using rep
      have guard : x ≠ h.start ∧ blockUsed h.mem (prevBlock h.mem x) = false := by
        rw [prev, taggedPrev.used, prevFree]
        exact ⟨later, rfl⟩
      have total : u32 (blockSize h.mem z + (4 + 5 + blockSize h.mem x)) =
          c.size + 9 + b.size := by
        rw [tagged.blockSize (by omega), taggedPrev.blockSize (by omega), u32_of_lt (by omega)]
        omega
      -- the size of the previous block is rewritten before it is read again
      -- through the trailing word between the two
      obtain ⟨m, written⟩ : ∃ m, m = setSize h.mem z (c.size + 9 + b.size) := ⟨_, rfl⟩
      have frame : SameOutside h.mem m z (z + 5) := by
        rw [written]
        unfold setSize
        rw [u32_of_lt (by omega)]
        exact sameOutside_store32 _ _ _ _ _ (by omega) (by omega)
      have prevAgain : prevBlock m x = z := by
        have word : sizePrevBlock m x = sizePrevBlock h.mem x := by
          unfold sizePrevBlock
          rw [sub32_of_le (by omega) (by omega)]
          exact frame.load32 _ (Or.inr (by omega))
        rw [← prev]
        unfold prevBlock
        rw [word]
      have field : endingSizeField m x = endingSizeField m z := by
        have stays : Tagged m x b := tagged.frame frame (Or.inr (by omega))
        rw [stays.endingSizeField (by omega)]
        unfold endingSizeField
        rw [written, blockSize_setSize _ _ _ (by omega), u32_of_lt (by omega)]
        omega
      have finish : (if x = h.endPtr then prevBlock h.mem x else h.endPtr) =
          if back = [] then z else h.endPtr := by
        simp only [prev, rep.isLast (x := x) (by simp only [span_append, span_cons, span_nil]; omega)]
      have merged := merge_represents (mergePrev x h) rep' before prevFree free
        (by
          unfold mergePrev
          rw [if_pos guard]
          simp only [prev, total, ← written, prevAgain]
          unfold setEndingSize
          rw [field, written, blockSize_setSize _ _ _ (by omega)])
        (by unfold mergePrev; rw [if_pos guard]; exact finish)
        (by unfold mergePrev; rw [if_pos guard])
        (by unfold mergePrev; rw [if_pos guard])
        (by unfold mergePrev; rw [if_pos guard])
      refine ⟨_, merged.1, by simpa using merged.2, fun before after used => ?_⟩
      obtain ⟨rest, beside⟩ := (coalesced_concat front c).mp before
      exact (coalesced_middle _ _ _).mpr ⟨rest, after, fun _ => ⟨beside prevFree, used⟩⟩
    · have unchanged : mergePrev x h = h := by
        unfold mergePrev
        rw [if_neg]
        rintro ⟨_, unused⟩
        rw [prev, taggedPrev.used] at unused
        exact prevFree (by simpa using unused)
      refine ⟨_, by rwa [unchanged], by rw [unchanged]; exact .refl _, fun before after used => ?_⟩
      exact (coalesced_middle _ _ _).mpr
        ⟨before, after, fun _ => ⟨usedLast_concat prevFree front, used⟩⟩

end Steps

end Snfos.DynamicAllocation
