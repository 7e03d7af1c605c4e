import Snfos.HeapClient
import Mathlib.Data.List.Induction

set_option autoImplicit false

/- The heap as its callers and its own macros see it, over whole runs. Nothing
here speaks of chains: the blocks are those `NEXT_BLOCK` reaches from `start`. -/
namespace Snfos.DynamicAllocation

open ByteMemory BlockChain

/-- The block `NEXT_BLOCK` reaches from `start` after `k` steps. -/
def walk (h : Heap) : Nat → Nat
  | 0 => h.start
  | k + 1 => nextBlock h.mem (walk h k)

/-- `b` is reached before the walk leaves `end`. -/
def OnWalk (h : Heap) (b : Nat) : Prop := ∃ k, walk h k = b ∧ ∀ i, i < k → walk h i ≠ h.endPtr

/-- `n` bytes at `p` touch neither the header nor the trailing size of `b`. -/
structure ClearOf (h : Heap) (p n b : Nat) : Prop where
  header : p + n ≤ b ∨ b + 5 ≤ p
  trailing : p + n ≤ endingSizeField h.mem b ∨ endingSizeField h.mem b + 4 ≤ p

/-- The chain from `start` is intact up to `end`. -/
structure Linked (h : Heap) : Prop where
  reaches : ∃ n, walk h n = h.endPtr ∧ ∀ i, i < n → walk h i < walk h (i + 1)
  trailing : ∀ b, OnWalk h b → load32 h.mem (endingSizeField h.mem b) = blockSize h.mem b
  back : ∀ b, OnWalk h b → b ≠ h.endPtr → prevBlock h.mem (nextBlock h.mem b) = b
  inside : h.endPtr + 5 + blockSize h.mem h.endPtr + 4 ≤ h.heapEnd

section Walk

variable {L : Layout} {h : Heap} {bs : List Block}

/-- Each step of the walk moves on by one block of the chain. -/
theorem Represents.walk {front back : List Block} {b : Block}
    (rep : Represents L h (front ++ b :: back)) :
    DynamicAllocation.walk h front.length = L.heapStart + span 9 front := by
  induction front using List.reverseRecOn generalizing b back with
  | nil =>
      rw [List.length_nil, DynamicAllocation.walk, rep.start, span_nil, Nat.add_zero]
  | append_singleton front c ih =>
      have inside := rep.inside
      have bound := rep.bound
      simp only [span_append, span_cons, span_nil] at inside
      have shifted : Represents L h (front ++ c :: b :: back) := by simpa using rep
      have previous := ih shifted
      have tagged : Tagged h.mem (L.heapStart + span 9 front) c :=
        rep.chain _ c (by simp)
      rw [List.length_append, List.length_singleton, DynamicAllocation.walk, previous,
        tagged.nextBlock (by omega)]
      simp only [span_append, span_cons, span_nil]
      omega

theorem Represents.step_walk (rep : Represents L h bs) {k : Nat} (inside : k < bs.length) :
    ∃ b, (DynamicAllocation.walk h k, b) ∈ place 9 L.heapStart bs ∧
      DynamicAllocation.walk h (k + 1) = DynamicAllocation.walk h k + (9 + b.size) := by
  obtain ⟨front, b, back, rfl, rfl⟩ := exists_split inside
  have extent := rep.inside
  have bound := rep.bound
  simp only [span_append, span_cons] at extent
  have placed : (DynamicAllocation.walk h front.length, b) ∈
      place 9 L.heapStart (front ++ b :: back) := by
    rw [rep.walk]
    exact mem_place_middle _ _ _ _
  refine ⟨b, placed, ?_⟩
  rw [DynamicAllocation.walk, (rep.chain _ b placed).nextBlock (by rw [rep.walk]; omega)]

theorem Represents.walk_end (rep : Represents L h bs) :
    ∃ n, bs.length = n + 1 ∧ DynamicAllocation.walk h n = h.endPtr := by
  obtain ⟨front, last, rfl, finish⟩ := rep.last
  have reached := Represents.walk rep
  exact ⟨front.length, by simp, by rw [finish, reached]⟩

theorem Represents.walk_lt (rep : Represents L h bs) {i k : Nat} (order : i < k)
    (inside : k < bs.length) : DynamicAllocation.walk h i < DynamicAllocation.walk h k := by
  induction k with
  | zero => omega
  | succ k ih =>
      obtain ⟨b, _, next⟩ := rep.step_walk (k := k) (by omega)
      rw [next]
      by_cases here : i = k
      · subst here
        omega
      · have earlier := ih (by omega) (by omega)
        omega

/-- The walk visits the blocks of the chain, each of them and nothing else. -/
theorem Represents.onWalk_iff (rep : Represents L h bs) (x : Nat) :
    OnWalk h x ↔ ∃ b, (x, b) ∈ place 9 L.heapStart bs := by
  obtain ⟨n, length, finish⟩ := rep.walk_end
  constructor
  · rintro ⟨k, rfl, before⟩
    have within : k ≤ n := by
      by_contra beyond
      exact before n (by omega) finish
    obtain ⟨b, placed, _⟩ := rep.step_walk (k := k) (by omega)
    exact ⟨b, placed⟩
  · rintro ⟨b, placed⟩
    obtain ⟨front, back, rfl, rfl⟩ := mem_place_split placed
    have inside : front.length < (front ++ b :: back).length := by simp
    refine ⟨front.length, rep.walk, fun i before last => ?_⟩
    have earlier := rep.walk_lt before inside
    have latest := rep.last.bounds.2 _ b placed
    rw [last, rep.walk] at earlier
    omega

theorem Represents.fits (rep : Represents L h bs) {x : Nat} {b : Block}
    (placed : (x, b) ∈ place 9 L.heapStart bs) : x + (9 + b.size) < 2 ^ 32 := by
  have inside := rep.inside
  have bound := rep.bound
  have bounds := place_bounds placed
  omega

theorem Represents.linked (rep : Represents L h bs) : Linked h := by
  refine ⟨?_, ?_, ?_, ?_⟩
  · obtain ⟨n, length, finish⟩ := rep.walk_end
    refine ⟨n, finish, fun i before => ?_⟩
    obtain ⟨b, _, next⟩ := rep.step_walk (k := i) (by omega)
    omega
  · intro x on
    obtain ⟨b, placed⟩ := (rep.onWalk_iff x).mp on
    have tagged := rep.chain x b placed
    have fits := rep.fits placed
    rw [tagged.endingSizeField fits, tagged.blockSize fits, tagged.trailing]
  · intro x on _
    obtain ⟨b, placed⟩ := (rep.onWalk_iff x).mp on
    have tagged := rep.chain x b placed
    have fits := rep.fits placed
    rw [tagged.nextBlock fits, tagged.prevBlock fits]
  · obtain ⟨⟨b, placed, finish⟩, _⟩ := rep.last.bounds
    have inside := rep.inside
    rw [(rep.chain _ b placed).blockSize (rep.fits placed)]
    omega

end Walk

namespace Client

variable {L : Layout} {c : Client} {bs : List Block}

theorem Holds.inside (holds : Holds L c bs) {p size : Nat} (live : (p, size) ∈ c.live) :
    L.heapStart + 5 ≤ p ∧ p + size + 4 ≤ c.heap.heapEnd := by
  obtain ⟨x, b, placed, _, here, fits⟩ := holds.payload live
  have bounds := place_bounds placed
  have inside := holds.represents.inside
  omega

theorem Holds.clearOf (holds : Holds L c bs) {p size b : Nat} (live : (p, size) ∈ c.live)
    (on : OnWalk c.heap b) : ClearOf c.heap p size b := by
  obtain ⟨x, d, placed, _, here, fits⟩ := holds.payload live
  obtain ⟨e, placed'⟩ := (holds.represents.onWalk_iff b).mp on
  have field := (holds.represents.chain b e placed').endingSizeField (holds.represents.fits placed')
  refine ⟨?_, ?_⟩
  · rcases place_apart placed placed' with ⟨same, _⟩ | apart | apart <;> omega
  · rw [field]
    rcases place_apart placed placed' with ⟨same, rfl⟩ | apart | apart <;> omega

/-- The live pointers are those just past the header of a used block. -/
theorem Holds.live_iff_used (holds : Holds L c bs) (p : Nat) :
    (∃ size, (p, size) ∈ c.live) ↔
      ∃ b, OnWalk c.heap b ∧ blockUsed c.heap.mem b = true ∧ p = b + 5 := by
  constructor
  · rintro ⟨size, live⟩
    obtain ⟨x, b, placed, owner, here, _⟩ := holds.payload live
    refine ⟨x, (holds.represents.onWalk_iff x).mpr ⟨b, placed⟩, ?_, here.symm⟩
    rw [(holds.represents.chain x b placed).used, owner]
    rfl
  · rintro ⟨x, on, used, rfl⟩
    obtain ⟨b, placed⟩ := (holds.represents.onWalk_iff x).mp on
    rw [(holds.represents.chain x b placed).used] at used
    obtain ⟨size, owner⟩ := Option.isSome_iff_exists.mp used
    exact ⟨size, (holds.live (x + 5) size).mpr ⟨x, rfl, b, placed, owner⟩⟩

/-- Every allocation held at any point of a run lies in the heap, apart from all
others and from all block metadata, and keeps its bytes until its owner stores
into it or frees it. No call of the run takes `heap_end` to `2 ^ 32`. -/
theorem live_allocations_stay_intact (L : Layout) (m : Memory) (calls : List Call) (c : Client)
    (run : Runs L (Allowed L) (boot m) calls c) :
    (∀ p size, (p, size) ∈ c.live → c.heap.start ≤ p ∧ p + size ≤ c.heap.heapEnd) ∧
      c.live.Pairwise Apart ∧
      (∀ p size b, (p, size) ∈ c.live → OnWalk c.heap b → ClearOf c.heap p size b) ∧
      ∀ later c' p size, Runs L (Allowed L) c later c' → (p, size) ∈ c.live →
        (∀ call ∈ later, ¬ Touches p size call) →
        (p, size) ∈ c'.live ∧ ∀ a, p ≤ a → a < p + size → c'.heap.mem a = c.heap.mem a := by
  have sound := runs_sound run (boot_sound L m)
  have keeps : ∀ later c' p size, Runs L (Allowed L) c later c' → (p, size) ∈ c.live →
      (∀ call ∈ later, ¬ Touches p size call) →
      (p, size) ∈ c'.live ∧ ∀ a, p ≤ a → a < p + size → c'.heap.mem a = c.heap.mem a :=
    fun later c' p size run' live untouched => runs_keep run' sound live untouched
  cases sound with
  | empty _ none =>
      rw [none] at keeps ⊢
      refine ⟨fun _ _ live => ?_, List.Pairwise.nil, fun _ _ _ live => ?_, keeps⟩
      · cases live
      · cases live
  | blocks bs holds =>
      refine ⟨fun p size live => ?_, holds.apart, fun p size b live on => holds.clearOf live on,
        keeps⟩
      have inside := holds.inside live
      rw [holds.represents.start]
      omega

theorem first_step (size : Nat) (positive : size ≠ 0) (m : Memory) :
    step sampleLayout (boot m) (.malloc size) = some ((boot m).received
      (firstBlock sampleLayout.heapStart size (boot m).heap).1 size
      (firstBlock sampleLayout.heapStart size (boot m).heap).2) := by
  simp only [step, malloc, positive, ↓reduceIte, boot, true_or]

/-- Of three blocks the second is freed, split for a fourth, and at last merged with the first. The
third keeps its bytes. -/
theorem live_allocations_stay_intact_merged : ∃ c c' : Client,
    c.live = [(0xC0122047, 8), (0xC0122016, 40), (0xC0122005, 8)] ∧ c.live.Pairwise Apart ∧
      (∀ b, OnWalk c.heap b → ClearOf c.heap 0xC0122016 40 b) ∧ c'.live = [(0xC0122047, 8)] ∧
      c'.heap.mem 0xC0122047 = 7 := by
  obtain ⟨c, run, held, stored, more⟩ := exists_runs (Allowed sampleLayout)
    (fun c => c.live = [(0xC0122047, 8), (0xC0122016, 40), (0xC0122005, 8)] ∧
      c.heap.mem 0xC0122047 = 7 ∧ (perform (Allowed sampleLayout) sampleLayout c
        [.free 0xC0122016, .malloc 8, .free 0xC0122005, .free 0xC0122016]).any
          (decide <| ·.live = [(0xC0122047, 8)]) = true)
    (show (perform (Allowed sampleLayout) sampleLayout (boot fun _ => 0)
      [.malloc 8, .malloc 40, .malloc 8, .store 0xC0122047 7]).any _ = true by decide +kernel)
  obtain ⟨c', later, alone⟩ := exists_runs (Allowed sampleLayout) _ more
  obtain ⟨_, apart, clear, keeps⟩ := live_allocations_stay_intact sampleLayout (fun _ => 0) _ c run
  have second : (0xC0122016, 40) ∈ c.live := by simp [held]
  have third : (0xC0122047, 8) ∈ c.live := by simp [held]
  have kept := keeps _ c' _ _ later third (by
    intro call member touches
    cases touches <;> simp at member)
  exact ⟨c, c', held, apart, fun b on => clear _ _ b second on, alone,
    (kept.2 _ (Nat.le_refl _) (by decide)).trans stored⟩

/-- The end of every block stays within the 32-bit addresses. -/
def BlocksEnd (h : Heap) : Prop :=
  ∀ b, OnWalk h b → b + 5 + blockSize h.mem b + 4 ≤ 2 ^ 32

/-- One block that ends 2 KiB below `2 ^ 32`. Its last page ends at `2 ^ 32`, so
`heap_end` comes out as 0 and the allocation lies outside the heap. -/
theorem heap_end_wraps :
    ∃ c, Runs sampleLayout (fun c call => c.Permitted call) (boot fun _ => 0)
        [.malloc 0x3FEDD7F7] c ∧ BlocksEnd c.heap ∧
      ∃ p size, (p, size) ∈ c.live ∧ ¬ p + size ≤ c.heap.heapEnd := by
  refine ⟨_, .cons trivial (first_step 0x3FEDD7F7 (by decide) _) (.nil _), ?_,
    0xC0122005, 0x3FEDD7F7, List.mem_cons_self .., by decide⟩
  rintro b ⟨k, reached, before⟩
  cases k with
  | zero =>
      subst reached
      decide
  | succ k => exact absurd (by decide) (before 0 (by omega))

theorem Sound.malloc_ends (sound : Sound L c) (size : Nat) :
    (malloc L.heapStart size c.heap).isSome := by
  unfold malloc
  split
  · rfl
  · split
    · rfl
    · next _ used =>
        cases sound with
        | empty heap _ => exact absurd (Or.inl heap.start) used
        | blocks bs holds =>
            obtain ⟨result, found, _⟩ := holds.represents.search size
            rw [found]
            cases result with
            | none => rfl
            | some block => rfl

/-- At every point of a run the chain is intact from `start` to `end`, what the
client holds is its used blocks, the two heap ends agree and a search ends. -/
theorem chain_stays_linked (L : Layout) (m : Memory) (calls : List Call) (c : Client)
    (run : Runs L (Allowed L) (boot m) calls c) :
    (c.heap.start = 0 → c.live = []) ∧
      (c.heap.start ≠ 0 → Linked c.heap ∧
        ∀ p, (∃ size, (p, size) ∈ c.live) ↔
          ∃ b, OnWalk c.heap b ∧ blockUsed c.heap.mem b = true ∧ p = b + 5) ∧
      c.heap.heapEnd = c.heap.allocEnd ∧
      ∀ size, (malloc L.heapStart size c.heap).isSome := by
  have sound := runs_sound run (boot_sound L m)
  have ends := sound.malloc_ends
  cases sound with
  | empty heap none =>
      exact ⟨fun _ => none, fun used => absurd heap.start used,
        heap.heapEnd.trans heap.allocEnd.symm, ends⟩
  | blocks bs holds =>
      have low := L.heapStart_facts
      refine ⟨fun unused => ?_, fun _ => ⟨holds.represents.linked, holds.live_iff_used⟩,
        holds.represents.agree.symm, ends⟩
      rw [holds.represents.start] at unused
      omega

/-- A free block between two that are held. -/
theorem chain_stays_linked_freed : ∃ c : Client,
    c.live = [(0xC0122047, 8), (0xC0122005, 8)] ∧ Linked c.heap ∧
      (∀ p, (∃ size, (p, size) ∈ c.live) ↔
        ∃ b, OnWalk c.heap b ∧ blockUsed c.heap.mem b = true ∧ p = b + 5) ∧
      OnWalk c.heap 0xC0122011 ∧ blockUsed c.heap.mem 0xC0122011 = false ∧
      c.heap.heapEnd = c.heap.allocEnd ∧ (malloc sampleLayout.heapStart 41 c.heap).isSome := by
  obtain ⟨c, run, held, used, first, second, free⟩ := exists_runs (Allowed sampleLayout)
    (fun c => c.live = [(0xC0122047, 8), (0xC0122005, 8)] ∧ c.heap.start ≠ 0 ∧
      walk c.heap 0 ≠ c.heap.endPtr ∧ walk c.heap 1 = 0xC0122011 ∧
      blockUsed c.heap.mem 0xC0122011 = false)
    (show (perform (Allowed sampleLayout) sampleLayout (boot fun _ => 0)
      sampleCalls).any _ = true by decide +kernel)
  obtain ⟨_, chain, agree, ends⟩ := chain_stays_linked sampleLayout (fun _ => 0) _ c run
  have on : OnWalk c.heap 0xC0122011 := ⟨1, second, by
    intro i before
    rw [Nat.lt_one_iff.mp before]
    exact first⟩
  exact ⟨c, held, (chain used).1, (chain used).2, on, free, agree, ends 41⟩

/-- What a page block obtained by a client that holds `live` has to be. -/
structure PageBlock (L : Layout) (live : List (Nat × Nat)) (p pages : Nat) (h : Heap) : Prop where
  aligned : p % 4096 = 0
  lower : L.heapStart ≤ p
  upper : p + 4096 * pages ≤ h.allocEnd
  apart : ∀ held ∈ live, Apart (p, 4096 * pages) held
  clear : ∀ b, OnWalk h b → ClearOf h p (4096 * pages) b
  linked : Linked h

/-- `malloc_pages` keeps its contract at the end of every run in which each such
call, this one included, finds a gap that is not between 5 and 17 bytes. -/
theorem mallocPages_gives_page_block (L : Layout) (m : Memory) (calls : List Call) (c : Client)
    (pages : Nat) (run : Runs L (Allowed L) (boot m) calls c) (positive : 1 ≤ pages)
    (bounded : c.NoOverflow L (.mallocPages pages)) (gap : c.GapFits (.mallocPages pages)) :
    PageBlock L c.live (mallocPages L.heapStart pages c.heap).1 pages
      (mallocPages L.heapStart pages c.heap).2 := by
  have sound := runs_sound run (boot_sound L m)
  obtain ⟨y, bs, pointer, aligned, holds, _⟩ :=
    mallocPages_placed pages (by omega) sound bounded gap
  obtain ⟨⟨p, h⟩, result⟩ : ∃ result, mallocPages L.heapStart pages c.heap = result := ⟨_, rfl⟩
  rw [result] at pointer aligned holds ⊢
  simp only at pointer aligned holds ⊢
  subst pointer
  have list : (c.received (y + 5) (4096 * pages) h).live = (y + 5, 4096 * pages) :: c.live := by
    simp [Client.received]
  have held : (y + 5, 4096 * pages) ∈ (c.received (y + 5) (4096 * pages) h).live := by
    rw [list]
    exact List.mem_cons_self ..
  have inside := holds.inside held
  have agree := holds.represents.agree
  have apart := holds.apart
  rw [list, List.pairwise_cons] at apart
  simp only [Client.received] at inside agree
  exact ⟨aligned, by omega, by omega, apart.1, fun b on => holds.clearOf held on,
    holds.represents.linked⟩

/-- Behind a free block between two that are held, and the rest of a page. -/
theorem mallocPages_gives_page_block_behind : ∃ c : Client,
    c.live = [(0xC0122047, 8), (0xC0122005, 8)] ∧
      sub32 c.heap.heapEnd (nextBlock c.heap.mem c.heap.endPtr) = 4013 ∧
      PageBlock sampleLayout c.live (mallocPages sampleLayout.heapStart 3 c.heap).1 3
        (mallocPages sampleLayout.heapStart 3 c.heap).2 := by
  obtain ⟨c, run, held, behind, room⟩ := exists_runs (Allowed sampleLayout)
    (fun c => c.live = [(0xC0122047, 8), (0xC0122005, 8)] ∧
      sub32 c.heap.heapEnd (nextBlock c.heap.mem c.heap.endPtr) = 4013 ∧
      c.NoOverflow sampleLayout (.mallocPages 3))
    (show (perform (Allowed sampleLayout) sampleLayout (boot fun _ => 0)
      sampleCalls).any _ = true by decide +kernel)
  have gap : c.GapFits (.mallocPages 3) := fun _ => Or.inr (by omega)
  exact ⟨c, held, behind, mallocPages_gives_page_block sampleLayout (fun _ => 0) _ c 3 run (by decide)
    room gap⟩

/-- Frames that hold a negative size where the new header's size field comes to lie. -/
def staleFrames : Memory := fun a => if a % 4096 = 4092 then 0 else 0xFF

/-- Five bytes are left after a block of 4082. `malloc_pages` then adds to the size
field past the last block, and its own block starts where that garbage says. -/
theorem mallocPages_misplaced :
    ∃ c, Runs sampleLayout (fun c call => c.Permitted call ∧ c.NoOverflow sampleLayout call)
        (boot staleFrames) [.malloc 4082] c ∧
      c.NoOverflow sampleLayout (.mallocPages 1) ∧
      ¬ PageBlock sampleLayout c.live (mallocPages sampleLayout.heapStart 1 c.heap).1 1
        (mallocPages sampleLayout.heapStart 1 c.heap).2 := by
  have room : firstEnd sampleLayout.heapStart 4082 < 2 ^ 32 := by decide
  refine ⟨_, .cons ⟨trivial, fun _ => room⟩ (first_step 4082 (by decide) _) (.nil _), ?_, ?_⟩
  · intro _
    decide
  · intro block
    exact absurd block.aligned (by decide)

end Client

end Snfos.DynamicAllocation
