import Snfos.Calloc

set_option autoImplicit false

/- What `realloc` gives its caller, and what it reads for it. -/
namespace Snfos.DynamicAllocation

open ByteMemory BlockChain

namespace Client

variable {L : Layout} {c : Client}

/-- What `realloc(ptr, size)` owes a client that holds `n` bytes at `ptr`, `own` bytes of
memory in all: NULL for no bytes, and otherwise a block with what was at `ptr`; nothing else
read, `ptr` free, and no other allocation changed. -/
structure Reallocated (L : Layout) (c : Client) (ptr n own size p : Nat) (h : Heap)
    (reads : List Nat) : Prop where
  result : size = 0 ∧ p = 0 ∨ Granted L (c.live.filter (·.1 ≠ ptr)) p size h ∧
    ∀ i, i < min n size → h.mem (p + i) = c.heap.mem (ptr + i)
  reads : ∀ a ∈ reads, ptr ≠ 0 ∧ ptr ≤ a ∧ a < ptr + own
  freed : ∀ b, OnWalk h b → blockUsed h.mem b = true → b + 5 ≠ ptr
  others : ∀ q other, (q, other) ∈ c.live → q ≠ ptr →
    ∀ a, q ≤ a → a < q + other → h.mem a = c.heap.mem a

def ReallocWorks (L : Layout) (c : Client) (ptr n own size : Nat) : Prop :=
  ∃ p h reads, realloc L.heapStart ptr size c.heap = some (p, h, reads) ∧
    Reallocated L c ptr n own size p h reads

/-- `ptr` is NULL, or held with `n` bytes. -/
def Held (c : Client) (ptr n : Nat) : Prop := ptr = 0 ∧ n = 0 ∨ (ptr, n) ∈ c.live

/-- The memory that belongs to `ptr`: the bytes asked for, or all that its block has. -/
def Own (c : Client) (ptr n own : Nat) : Prop :=
  own = n ∨ own = blockSize c.heap.mem (sub32 ptr 5)

/-- The blocks in use are those that are held. -/
theorem Sound.used_held (sound : Sound L c) {b : Nat} (on : OnWalk c.heap b)
    (used : blockUsed c.heap.mem b = true) : b = 0 ∨ ∃ size, (b + 5, size) ∈ c.live := by
  cases sound with
  | empty heap _ =>
      obtain ⟨k, reached, before⟩ := on
      cases k with
      | zero => exact Or.inl (reached.symm.trans heap.start)
      | succ k => exact absurd (heap.start.trans heap.endPtr.symm) (before 0 (by omega))
  | blocks bs holds => exact Or.inr ((holds.live_iff_used (b + 5)).mpr ⟨b, on, used, rfl⟩)

theorem Sound.own_bounds (sound : Sound L c) {ptr n own : Nat} (live : (ptr, n) ∈ c.live)
    (mine : Own c ptr n own) : n ≤ own ∧ ptr + own < 2 ^ 32 := by
  have bounds := sound.bounds live
  rcases mine with rfl | rfl
  · omega
  · obtain ⟨bs, holds⟩ := sound.holds live
    obtain ⟨x, b, placed, _, here, fits⟩ := holds.payload live
    have extent := holds.represents.fits placed
    have header : sub32 ptr 5 = x := by
      rw [sub32_of_le (by omega) (by omega)]
      omega
    rw [header, (holds.represents.chain x b placed).blockSize extent]
    omega

/-- The new block is at an address that was not held. -/
theorem Served.fresh {size p : Nat} {h : Heap} (served : Served L c size p h)
    (positive : size ≠ 0) {q other : Nat} (live : (q, other) ∈ c.live) : q ≠ p := by
  rintro rfl
  have apart := served.apart positive _ live
  obtain rfl := served.sound.held_once (served.mem positive) (served.live live)
  unfold Apart at apart
  simp only at apart
  omega

/-- Where it does not overflow, `realloc` keeps its contract but for what it reads. -/
theorem realloc_served (sound : Sound L c) {ptr n size : Nat} (held : Held c ptr n)
    (bounded : c.NoOverflow L (.malloc size)) :
    ∃ p h reads, realloc L.heapStart ptr size c.heap = some (p, h, reads) ∧
      reads = (List.range size).map (fun i => u32 (ptr + i)) ∧
      ∀ own, (∀ a ∈ reads, ptr ≠ 0 ∧ ptr ≤ a ∧ a < ptr + own) →
        Reallocated L c ptr n own size p h reads := by
  obtain ⟨p, h, result, served⟩ := malloc_served sound bounded
  have bound := served.bound
  obtain ⟨m, mIs⟩ : ∃ m, m = (memcpy p ptr size h.mem).1 := ⟨_, rfl⟩
  have same : SameOutside h.mem m p (p + size) :=
    mIs ▸ memcpy_sameOutside h.mem (Nat.le_of_lt bound)
  obtain ⟨d, dIs⟩ : ∃ d, d = c.received p size { h with mem := m } := ⟨_, rfl⟩
  have mem : d.heap.mem = m := by rw [dIs]; rfl
  have live : d.live = (c.received p size h).live := by rw [dIs]; rfl
  have copied : Sound L d := dIs ▸ served.overwrite same
  have permitted : d.Permitted (.free ptr) := by
    rcases held with ⟨null, _⟩ | mine
    · exact Or.inl null
    · exact Or.inr ⟨n, live ▸ served.live mine⟩
  obtain ⟨c', stepped, sound', keeps⟩ := free_sound ptr copied permitted
  cases stepped
  -- what `free` leaves alone, in terms of the two memories
  have kept : ∀ q other, (q, other) ∈ d.live → q ≠ ptr →
      (q, other) ∈ d.live.filter (·.1 ≠ ptr) ∧
        ∀ a, q ≤ a → a < q + other → (free ptr d.heap).mem a = m a := by
    intro q other mine different
    rw [← mem]
    refine keeps q other mine fun touches => ?_
    cases touches
    exact different rfl
  refine ⟨p, free ptr d.heap, _, ?_, memcpy_reads h.mem p ptr size, fun own reads => ?_⟩
  · rw [realloc_of_malloc result, dIs, mIs]
    rfl
  refine ⟨?_, reads, ?_, ?_⟩
  · by_cases none : size = 0
    · exact Or.inl ⟨none, served.null.mpr none⟩
    · right
      have different : p ≠ ptr := by
        rcases held with ⟨rfl, _⟩ | mine
        · exact fun zero => none (served.null.mp zero)
        · exact fun same => served.fresh none mine same.symm
      obtain ⟨member, bytes⟩ := kept p size (live ▸ served.mem none) different
      refine ⟨sound'.granted member fun other mine => ?_, fun i small => ?_⟩
      · exact served.apart none other (List.mem_filter.mp mine).1
      · rcases held with ⟨_, rfl⟩ | mine
        · omega
        · have range := sound.bounds mine
          have source : u32 (ptr + i) = ptr + i := u32_of_lt (by omega)
          have apart := served.apart none _ mine
          unfold Apart at apart
          simp only at apart
          rw [bytes (p + i) (by omega) (by omega), mIs,
            memcpy_inside (Nat.le_of_lt bound) (by omega) (by rw [source]; omega), source]
          exact served.kept ptr n mine (ptr + i) (by omega) (by omega)
  · intro b on used pointer
    rcases sound'.used_held on used with zero | ⟨other, mine⟩
    · rcases held with ⟨null, _⟩ | mine
      · omega
      · have range := sound.bounds mine
        have low := L.heapStart_facts
        omega
    · exact absurd pointer (of_decide_eq_true (List.mem_filter.mp mine).2)
  · intro q other mine different a lower upper
    rw [(kept q other (live ▸ served.live mine) different).2 a lower upper]
    by_cases none : size = 0
    · rw [same a (by omega), served.kept q other mine a lower upper]
    · have apart := served.apart none _ mine
      unfold Apart at apart
      simp only at apart
      rw [same a (by omega), served.kept q other mine a lower upper]

/-- In every state that requests lead to, `realloc` keeps its contract exactly where it is
asked for no bytes, or has a block to copy from that is as long as the new one. -/
theorem realloc_works_iff (L : Layout) (m : Memory) (c : Client) (reached : Reached L m c)
    (ptr n own size : Nat) (held : Held c ptr n) (mine : Own c ptr n own)
    (bounded : c.NoOverflow L (.malloc size)) :
    ReallocWorks L c ptr n own size ↔ size = 0 ∨ ptr ≠ 0 ∧ size ≤ own := by
  have sound := reached.sound
  obtain ⟨p, h, reads, result, readsIs, served⟩ := realloc_served sound held bounded
  have read : ∀ i, i < size → u32 (ptr + i) ∈ reads := fun i inside => by
    rw [readsIs]
    exact List.mem_map.mpr ⟨i, List.mem_range.mpr inside, rfl⟩
  constructor
  · rintro ⟨p', h', reads', result', works⟩
    rw [result, Option.some.injEq, Prod.mk.injEq, Prod.mk.injEq] at result'
    obtain ⟨rfl, rfl, rfl⟩ := result'
    by_cases none : size = 0
    · exact Or.inl none
    · have some := (works.reads _ (read 0 (Nat.pos_of_ne_zero none))).1
      refine Or.inr ⟨some, ?_⟩
      by_contra longer
      obtain ⟨_, range⟩ := sound.own_bounds (held.resolve_left fun null => some null.1) mine
      have past := (works.reads _ (read own (Nat.not_le.mp longer))).2.2
      rw [u32_of_lt range] at past
      omega
  · intro fits
    refine ⟨p, h, reads, result, served own fun a member => ?_⟩
    rw [readsIs] at member
    obtain ⟨i, inside, rfl⟩ := List.mem_map.mp member
    rw [List.mem_range] at inside
    rcases fits with none | ⟨some, within⟩
    · omega
    · obtain ⟨_, range⟩ := sound.own_bounds (held.resolve_left fun null => some null.1) mine
      rw [u32_of_lt (by omega)]
      exact ⟨some, by omega, by omega⟩

/-- After the first block there is room for a small one. -/
theorem oneBlock_room {size : Nat} (small : size ≤ 4096) :
    oneBlock.NoOverflow sampleLayout (.malloc size) := by
  intro positive
  have rep := (firstBlock_represents (L := sampleLayout) (h := ⟨fun _ => 0, 0, 0, 0, 0⟩) 8
    ⟨rfl, rfl, rfl, rfl⟩ (by decide)).2.1
  rcases rep.malloc_cases positive with room | ⟨_, finish⟩
  · exact room
  · have place : sampleLayout.heapStart + span 9 [Block.taken 8 8 (Nat.le_refl 8)] = 0xC0122011 := by
      decide
    have last : (firstBlock sampleLayout.heapStart 8 ⟨fun _ => 0, 0, 0, 0, 0⟩).2.heapEnd =
        0xC0123000 := by decide
    rw [place, last] at finish
    apply Nat.lt_of_le_of_lt (Nat.le_of_eq finish)
    unfold grownEnd
    split <;> omega

theorem realloc_works_shrinking : ReallocWorks sampleLayout oneBlock 0xC0122005 8 8 4 :=
  (realloc_works_iff sampleLayout (fun _ => 0) oneBlock oneBlock_reached 0xC0122005 8 8 4
    (Or.inr (List.mem_singleton.mpr rfl)) (Or.inl rfl) (oneBlock_room (by decide))).mpr
    (Or.inr ⟨by decide, by decide⟩)

/-- Growing a block reads past its end, and NULL is read like a block. -/
theorem realloc_reads_past :
    Reached sampleLayout (fun _ => 0) oneBlock ∧ (0xC0122005, 8) ∈ oneBlock.live ∧
      blockSize oneBlock.heap.mem 0xC0122000 = 8 ∧
      ¬ReallocWorks sampleLayout oneBlock 0xC0122005 8 8 16 ∧
      ¬ReallocWorks sampleLayout oneBlock 0 0 0 16 := by
  have held : (0xC0122005, 8) ∈ oneBlock.live := List.mem_singleton.mpr rfl
  have reading : ∀ {ptr n : Nat}, Held oneBlock ptr n → ∀ i, i < 16 →
      ReallocWorks sampleLayout oneBlock ptr n n 16 →
      ptr ≠ 0 ∧ ptr ≤ u32 (ptr + i) ∧ u32 (ptr + i) < ptr + n := by
    intro ptr n mine i inside works
    obtain ⟨p, h, reads, result, readsIs, _⟩ :=
      realloc_served oneBlock_reached.sound mine (oneBlock_room (show 16 ≤ 4096 by decide))
    obtain ⟨p', h', reads', result', contract⟩ := works
    rw [result, Option.some.injEq, Prod.mk.injEq, Prod.mk.injEq] at result'
    obtain ⟨rfl, rfl, rfl⟩ := result'
    apply contract.reads _
    rw [readsIs]
    exact List.mem_map.mpr ⟨i, List.mem_range.mpr inside, rfl⟩
  refine ⟨oneBlock_reached, held, by decide, fun works => ?_, fun works => ?_⟩
  · exact absurd (reading (Or.inr held) 8 (by decide) works) (by decide)
  · exact (reading (Or.inl ⟨rfl, rfl⟩) 0 (by decide) works).1 rfl

end Client

end Snfos.DynamicAllocation
