import Snfos.HeapRequests

set_option autoImplicit false

/- What `calloc` gives its caller. -/
namespace Snfos.DynamicAllocation

open ByteMemory BlockChain

/-- A client that holds `live` is given `size` bytes at `p`: a block in use, below
`heap_end`, that overlaps nothing else. -/
structure Granted (L : Layout) (live : List (Nat × Nat)) (p size : Nat) (h : Heap) : Prop where
  block : ∃ b, OnWalk h b ∧ blockUsed h.mem b = true ∧ p = b + 5 ∧ size ≤ blockSize h.mem b
  lower : L.heapStart ≤ p
  upper : p + size + 4 ≤ h.heapEnd
  bound : h.heapEnd < 2 ^ 32
  pages : h.heapEnd ≤ h.allocEnd
  apart : ∀ held ∈ live, Client.Apart (p, size) held

namespace Client

variable {L : Layout} {c : Client}

theorem Sound.granted (sound : Sound L c) {p size : Nat} (held : (p, size) ∈ c.live)
    {others : List (Nat × Nat)} (apart : ∀ other ∈ others, Apart (p, size) other) :
    Granted L others p size c.heap := by
  have bounds := sound.bounds held
  obtain ⟨bs, holds⟩ := sound.holds held
  have rep := holds.represents
  obtain ⟨x, b, placed, owner, here, fits⟩ := holds.payload held
  have tagged := rep.chain x b placed
  refine ⟨⟨x, (rep.onWalk_iff x).mpr ⟨b, placed⟩, ?_, here.symm, ?_⟩, by omega, by omega,
    by omega, Nat.le_of_eq rep.agree.symm, apart⟩
  · rw [tagged.used, owner]
    rfl
  · rw [tagged.blockSize (rep.fits placed)]
    exact fits

/-- What was just handed out overlaps nothing that was held before. -/
theorem Served.apart {size p : Nat} {h : Heap} (served : Served L c size p h)
    (positive : size ≠ 0) : ∀ other ∈ c.live, Apart (p, size) other := by
  have some : p ≠ 0 := fun zero => positive (served.null.mp zero)
  have pairs := served.sound.apart
  unfold received at pairs
  rw [if_neg some] at pairs
  exact (List.pairwise_cons.mp pairs).1

/-- `calloc(n, size)` returns NULL, or a live block of `n * size` bytes that are all zero. -/
def CallocWorks (L : Layout) (c : Client) (n size : Nat) : Prop :=
  ∃ p h, calloc L.heapStart n size c.heap = some (p, h) ∧
    (p = 0 ∨ Granted L c.live p (n * size) h ∧ ∀ a, p ≤ a → a < p + n * size → h.mem a = 0)

/-- The product as `malloc` sees it is zero. Or it has 32 bits, the block for it ends below
`2 ^ 32`, and past its first `size` bytes the memory it will take is zero already. -/
def CallocFits (L : Layout) (h : Heap) (n size : Nat) : Prop :=
  u32 (n * size) = 0 ∨
    n * size < 2 ^ 32 ∧ mallocEnd L.heapStart (n * size) h < 2 ^ 32 ∧
      ∀ a, firstFit L.heapStart (n * size) h + size ≤ a →
        a < firstFit L.heapStart (n * size) h + n * size → h.mem a = 0

theorem size_le_mul {n size : Nat} (positive : n * size ≠ 0) : size ≤ n * size := by
  refine Nat.le_mul_of_pos_left size (Nat.pos_of_ne_zero fun zero => positive ?_)
  rw [zero, Nat.zero_mul]

/-- With a product of 32 bits and room for it, what `calloc` leaves in the block. -/
theorem calloc_served (sound : Sound L c) {n size : Nat} (positive : n * size ≠ 0)
    (small : n * size < 2 ^ 32) (room : mallocEnd L.heapStart (n * size) c.heap < 2 ^ 32) :
    ∃ p h, p = firstFit L.heapStart (n * size) c.heap ∧
      calloc L.heapStart n size c.heap = some (p, h) ∧ Granted L c.live p (n * size) h ∧
      ∀ a, p ≤ a → a < p + n * size →
        h.mem a = if a < p + size then 0 else c.heap.mem a := by
  have bounded : c.NoOverflow L (.malloc (n * size)) := fun _ => room
  obtain ⟨p, h, result, served⟩ := malloc_served sound bounded
  obtain ⟨h', result', payload⟩ := malloc_payload sound.wellFormed positive room
  rw [result, Option.some.injEq, Prod.mk.injEq] at result'
  obtain ⟨place, rfl⟩ := result'
  rw [← place] at payload
  have some : p ≠ 0 := fun zero => positive (served.null.mp zero)
  have called := calloc_of_malloc ((congrArg (malloc L.heapStart · c.heap) (u32_of_lt small)).trans result)
  rw [if_pos some] at called
  have bound := served.bound
  have inside := size_le_mul positive
  have filled : SameOutside h.mem (memset p 0 size h.mem) p (p + n * size) :=
    (memset_sameOutside h.mem 0 (by omega)).mono (Nat.le_refl p) (by omega)
  refine ⟨p, _, place, called, ?_, fun a lower upper => ?_⟩
  · have held := served.mem positive
    exact (served.overwrite filled).granted held (served.apart positive)
  · show memset p 0 size h.mem a = _
    rw [memset_at 0 (by omega)]
    by_cases early : a < p + size
    · rw [if_pos early, if_pos ⟨lower, early⟩]
    · rw [if_neg early, if_neg fun inside => early inside.2, payload a lower upper]

/-- Past the addresses the block `calloc` returns is too short. -/
theorem calloc_too_short (sound : Sound L c) {n size : Nat} (positive : u32 (n * size) ≠ 0)
    (works : CallocWorks L c n size) :
    n * size < 2 ^ 32 ∧ mallocEnd L.heapStart (n * size) c.heap < 2 ^ 32 := by
  obtain ⟨p, h, result, outcome⟩ := works
  obtain ⟨q, h', called, some, short⟩ : ∃ q h', malloc L.heapStart (u32 (n * size)) c.heap =
      some (q, h') ∧ q ≠ 0 ∧ (2 ^ 32 ≤ mallocEnd L.heapStart (u32 (n * size)) c.heap →
        h'.heapEnd < q + u32 (n * size) + 4) := by
    by_cases room : mallocEnd L.heapStart (u32 (n * size)) c.heap < 2 ^ 32
    · obtain ⟨h', called, _⟩ := malloc_payload sound.wellFormed positive room
      exact ⟨_, h', called, firstFit_pos _ _ _, fun far => absurd room (Nat.not_lt.mpr far)⟩
    · obtain ⟨x, h', called, short, _⟩ :=
        malloc_out_of_range sound.wellFormed positive (Nat.not_lt.mp room)
      exact ⟨x + 5, h', called, by omega, fun _ => by omega⟩
  rw [calloc_of_malloc called, if_pos some, Option.some.injEq, Prod.mk.injEq] at result
  obtain ⟨rfl, rfl⟩ := result
  rcases outcome with null | ⟨granted, _⟩
  · exact absurd null some
  · have upper := granted.upper
    have bound := granted.bound
    simp only at upper bound
    have small : n * size < 2 ^ 32 := by omega
    rw [u32_of_lt small] at short
    exact ⟨small, by omega⟩

/-- In every state that requests lead to, `calloc` does what it says exactly where
`CallocFits` holds. -/
theorem calloc_works_iff (L : Layout) (m : Memory) (c : Client) (reached : Reached L m c)
    (n size : Nat) : CallocWorks L c n size ↔ CallocFits L c.heap n size := by
  have sound := reached.sound
  by_cases none : u32 (n * size) = 0
  · have result : malloc L.heapStart (u32 (n * size)) c.heap = some (0, c.heap) := by
      unfold malloc
      rw [if_pos none]
    exact ⟨fun _ => Or.inl none, fun _ => ⟨_, _, calloc_of_malloc result, Or.inl rfl⟩⟩
  · have positive : n * size ≠ 0 := fun zero => none (by rw [zero]; rfl)
    constructor
    · intro works
      obtain ⟨small, room⟩ := calloc_too_short sound none works
      obtain ⟨p, h, result, outcome⟩ := works
      obtain ⟨q, h', place, result', _, bytes⟩ := calloc_served sound positive small room
      rw [result, Option.some.injEq, Prod.mk.injEq] at result'
      obtain ⟨rfl, rfl⟩ := result'
      refine Or.inr ⟨small, room, fun a lower upper => ?_⟩
      rw [← place] at lower upper
      rcases outcome with null | ⟨_, zero⟩
      · exact absurd (place.symm.trans null) (firstFit_pos _ _ _)
      · have value := bytes a (by omega) upper
        rw [zero a (by omega) upper, if_neg (by omega)] at value
        exact value.symm
    · rintro (absent | ⟨small, room, tail⟩)
      · exact absurd absent none
      · obtain ⟨p, h, place, result, granted, bytes⟩ := calloc_served sound positive small room
        refine ⟨p, h, result, Or.inr ⟨granted, fun a lower upper => ?_⟩⟩
        rw [bytes a lower upper]
        split
        · rfl
        · exact tail a (by omega) (by omega)

/-- Four times eight bytes from a free block between two that are held, which was never written. -/
theorem calloc_works_between : ∃ c : Client, c.live = [(0xC0122047, 8), (0xC0122005, 8)] ∧
    firstFit sampleLayout.heapStart 32 c.heap = 0xC0122016 ∧ CallocWorks sampleLayout c 4 8 := by
  obtain ⟨c, run, held, place, room, zero⟩ := exists_runs (Allowed sampleLayout)
    (fun c => c.live = [(0xC0122047, 8), (0xC0122005, 8)] ∧
      firstFit sampleLayout.heapStart 32 c.heap = 0xC0122016 ∧
      mallocEnd sampleLayout.heapStart 32 c.heap < 2 ^ 32 ∧
      ∀ i, i < 24 → c.heap.mem (0xC012201E + i) = 0)
    (show (perform (Allowed sampleLayout) sampleLayout (boot fun _ => 0) sampleCalls).any _ = true by
      decide +kernel)
  have reached : Reached sampleLayout (fun _ => 0) c := Reached.runs .refl run
  refine ⟨c, held, place, (calloc_works_iff sampleLayout (fun _ => 0) c reached 4 8).mpr
    (Or.inr ⟨by decide, room, fun a lower upper => ?_⟩)⟩
  have there : firstFit sampleLayout.heapStart (4 * 8) c.heap = 0xC0122016 := place
  rw [there] at lower upper
  obtain ⟨i, rfl⟩ := Nat.exists_eq_add_of_le lower
  exact zero i (by omega)

/-- The first block, of eight bytes. -/
def oneBlock : Client :=
  ⟨(firstBlock sampleLayout.heapStart 8 ⟨fun _ => 0, 0, 0, 0, 0⟩).2, [(0xC0122005, 8)]⟩

theorem oneBlock_reached : Reached sampleLayout (fun _ => 0) oneBlock := by
  have room : firstEnd sampleLayout.heapStart 8 < 2 ^ 32 := by decide
  exact .tail .refl ⟨.call (.malloc 8), ⟨trivial, fun _ => room, trivial⟩, rfl⟩

/-- Its last byte was written before it was freed. -/
def recycled : Client :=
  ⟨free 0xC0122005 { oneBlock.heap with mem := store8 oneBlock.heap.mem 0xC012200C 1 }, []⟩

theorem recycled_reached : Reached sampleLayout (fun _ => 0) recycled := by
  have held : (0xC0122005, 8) ∈ oneBlock.live := List.mem_singleton.mpr rfl
  have stored : Reached sampleLayout (fun _ => 0)
      { oneBlock with heap := { oneBlock.heap with mem := store8 oneBlock.heap.mem 0xC012200C 1 } } :=
    .tail oneBlock_reached ⟨.call (.store 0xC012200C 1),
      ⟨⟨0xC0122005, 8, held, by decide, by decide⟩, trivial, trivial⟩, rfl⟩
  exact .tail stored ⟨.call (.free 0xC0122005), ⟨Or.inr ⟨8, held⟩, trivial, trivial⟩, rfl⟩

/-- Two times four bytes are served from that block, and only the first four are zeroed. -/
theorem calloc_keeps_old_byte :
    Reached sampleLayout (fun _ => 0) recycled ∧ ¬CallocWorks sampleLayout recycled 2 4 := by
  have found : search recycled.heap.mem recycled.heap.endPtr 8 (2 ^ 32) recycled.heap.start =
      some (some 0xC0122000) := by
    rw [show 2 ^ 32 = (2 ^ 32 - 1) + 1 from rfl, search, if_pos (by decide), if_pos (by decide)]
    decide
  have start : recycled.heap.start ≠ 0 := by decide
  have place : firstFit sampleLayout.heapStart (2 * 4) recycled.heap = 0xC0122005 := by
    unfold firstFit
    rw [if_neg start, found]
  have room : mallocEnd sampleLayout.heapStart (2 * 4) recycled.heap < 2 ^ 32 := by
    unfold mallocEnd
    rw [if_neg start, found]
    decide
  obtain ⟨p, h, first, result, _, bytes⟩ :=
    @calloc_served sampleLayout recycled recycled_reached.sound 2 4 (by decide) (by decide) room
  rw [place] at first
  refine ⟨recycled_reached, ?_⟩
  rintro ⟨q, h', result', outcome⟩
  rw [result, Option.some.injEq, Prod.mk.injEq] at result'
  obtain ⟨rfl, rfl⟩ := result'
  rcases outcome with null | ⟨_, zero⟩
  · omega
  · have cleared := zero 0xC012200C (by omega) (by omega)
    rw [bytes 0xC012200C (by omega) (by omega), if_neg (by omega)] at cleared
    exact absurd cleared (by decide)

end Client

end Snfos.DynamicAllocation
