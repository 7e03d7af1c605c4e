import Snfos.HeapContract

set_option autoImplicit false

/- Runs of the allocator with a client: calls in any order, the stores the client
makes into what it holds, and the list of what it holds. -/
namespace Snfos.DynamicAllocation

open ByteMemory BlockChain

/-- `live` pairs every pointer a call returned and that was not freed since with
the size asked for. It follows from the calls alone, never from the heap. -/
structure Client where
  heap : Heap
  live : List (Nat × Nat)

inductive Call where
  | malloc (size : Nat)
  | mallocPages (pages : Nat)
  | free (ptr : Nat)
  | store (address : Nat) (value : UInt8)

namespace Client

def boot (m : Memory) : Client := ⟨⟨m, 0, 0, 0, 0⟩, []⟩

def received (c : Client) (p size : Nat) (h : Heap) : Client :=
  ⟨h, if p = 0 then c.live else (p, size) :: c.live⟩

/-- A step is `none` only where the search of `malloc` does not end. -/
def step (L : Layout) (c : Client) : Call → Option Client
  | .malloc size =>
      match malloc L.heapStart size c.heap with
      | none => none
      | some (p, h) => some (c.received p size h)
  | .mallocPages pages =>
      let (p, h) := mallocPages L.heapStart pages c.heap
      some (c.received p (4096 * pages) h)
  | .free ptr => some ⟨free ptr c.heap, c.live.filter (·.1 ≠ ptr)⟩
  | .store address value =>
      some { c with heap := { c.heap with mem := store8 c.heap.mem address value } }

/-- Pointers passed to `free` are held, and stores go to bytes that are held. -/
def Permitted (c : Client) : Call → Prop
  | .malloc _ => True
  | .mallocPages _ => True
  | .free ptr => ptr = 0 ∨ ∃ size, (ptr, size) ∈ c.live
  | .store address _ => ∃ p size, (p, size) ∈ c.live ∧ p ≤ address ∧ address < p + size

/-- No address the call computes, `heap_end` included, reaches `2 ^ 32`. -/
def NoOverflow (L : Layout) (c : Client) : Call → Prop
  | .malloc size => size ≠ 0 → mallocEnd L.heapStart size c.heap < 2 ^ 32
  | .mallocPages pages => pages ≠ 0 →
      (if c.heap.start = 0 then L.heapStart + 4096 + (pages + 1) * 4096
       else pagesEnd c.heap.heapEnd (nextBlock c.heap.mem c.heap.endPtr) pages) < 2 ^ 32
  | .free _ => True
  | .store _ _ => True

/-- What `malloc_pages` finds between the last block and `heap_end` is not
between 5 and 17 bytes. -/
def GapFits (c : Client) : Call → Prop
  | .mallocPages _ => c.heap.start ≠ 0 →
      sub32 c.heap.heapEnd (nextBlock c.heap.mem c.heap.endPtr) < 5 ∨
        18 ≤ sub32 c.heap.heapEnd (nextBlock c.heap.mem c.heap.endPtr)
  | _ => True

structure Allowed (L : Layout) (c : Client) (call : Call) : Prop where
  permitted : c.Permitted call
  bounded : c.NoOverflow L call
  gap : c.GapFits call

/-- A run whose every call satisfies `ok` where it is made. -/
inductive Runs (L : Layout) (ok : Client → Call → Prop) : Client → List Call → Client → Prop
  | nil (c : Client) : Runs L ok c [] c
  | cons {c c' c'' : Client} {call : Call} {calls : List Call} (allowed : ok c call)
      (stepped : c.step L call = some c') (rest : Runs L ok c' calls c'') :
      Runs L ok c (call :: calls) c''

section Checking

variable {L : Layout} {c c' : Client} {calls : List Call}

instance (c : Client) : ∀ call, Decidable (c.Permitted call)
  | .malloc _ => isTrue trivial
  | .mallocPages _ => isTrue trivial
  | .free ptr => decidable_of_iff (ptr = 0 ∨ ∃ held ∈ c.live, held.1 = ptr)
      (by simp [Permitted])
  | .store address _ =>
      decidable_of_iff (∃ held ∈ c.live, held.1 ≤ address ∧ address < held.1 + held.2)
        (by simp [Permitted])

instance (L : Layout) (c : Client) : ∀ call, Decidable (c.NoOverflow L call)
  | .malloc _ => inferInstanceAs (Decidable (_ → _))
  | .mallocPages _ => inferInstanceAs (Decidable (_ → _))
  | .free _ => isTrue trivial
  | .store _ _ => isTrue trivial

instance (c : Client) : ∀ call, Decidable (c.GapFits call)
  | .mallocPages _ => inferInstanceAs (Decidable (_ → _))
  | .malloc _ => isTrue trivial
  | .free _ => isTrue trivial
  | .store _ _ => isTrue trivial

instance (L : Layout) (c : Client) (call : Call) : Decidable (Allowed L c call) :=
  decidable_of_iff (c.Permitted call ∧ c.NoOverflow L call ∧ c.GapFits call)
    ⟨fun ⟨permitted, bounded, gap⟩ => ⟨permitted, bounded, gap⟩,
      fun allowed => ⟨allowed.permitted, allowed.bounded, allowed.gap⟩⟩

variable (ok : Client → Call → Prop) [∀ c call, Decidable (ok c call)]

/-- A run as it is computed, up to a call that is not `ok`. -/
def perform (L : Layout) : Client → List Call → Option Client
  | c, [] => some c
  | c, call :: calls =>
      if ok c call then (c.step L call).bind fun c' => perform L c' calls else none

theorem runs_of_perform (result : perform ok L c calls = some c') : Runs L ok c calls c' := by
  induction calls generalizing c with
  | nil =>
      cases result
      exact .nil _
  | cons call calls ih =>
      unfold perform at result
      split at result
      · next allowed =>
        obtain ⟨d, stepped, rest⟩ := Option.bind_eq_some_iff.mp result
        exact .cons allowed stepped (ih rest)
      · cases result

/-- A run that was computed, and what was computed of its end. -/
theorem exists_runs (P : Client → Prop) [DecidablePred P]
    (checked : (perform ok L c calls).any (decide <| P ·) = true) :
    ∃ c', Runs L ok c calls c' ∧ P c' := by
  obtain ⟨c', result, holds⟩ := (Option.any_eq_true _ _).mp checked
  exact ⟨c', runs_of_perform ok result, of_decide_eq_true holds⟩

end Checking

def Apart (first second : Nat × Nat) : Prop :=
  first.1 + first.2 ≤ second.1 ∨ second.1 + second.2 ≤ first.1

/-- The client's list is the owned blocks of the chain. -/
structure Holds (L : Layout) (c : Client) (bs : List Block) : Prop where
  represents : Represents L c.heap bs
  live : ∀ p size, (p, size) ∈ c.live ↔ ∃ x, x + 5 = p ∧ Owned 9 L.heapStart bs x size
  apart : c.live.Pairwise Apart

inductive Sound (L : Layout) (c : Client) : Prop
  | empty (heap : Empty c.heap) (none : c.live = [])
  | blocks (bs : List Block) (holds : Holds L c bs)

/-- The owner of `(p, size)` gives it up or stores into it. -/
inductive Touches (p size : Nat) : Call → Prop
  | free : Touches p size (.free p)
  | store (address : Nat) (value : UInt8) (lower : p ≤ address) (upper : address < p + size) :
      Touches p size (.store address value)

/-- What the client held it still holds, byte for byte, unless `call` touches it. -/
def Keeps (c c' : Client) (call : Call) : Prop :=
  ∀ p size, (p, size) ∈ c.live → ¬ Touches p size call →
    (p, size) ∈ c'.live ∧ ∀ a, p ≤ a → a < p + size → c'.heap.mem a = c.heap.mem a

section Invariant

variable {L : Layout} {c : Client} {bs : List Block}

theorem boot_sound (L : Layout) (m : Memory) : Sound L (boot m) :=
  .empty ⟨rfl, rfl, rfl, rfl⟩ rfl

theorem Sound.holds (sound : Sound L c) {p size : Nat} (live : (p, size) ∈ c.live) :
    ∃ bs, Holds L c bs := by
  cases sound with
  | empty _ none =>
      rw [none] at live
      cases live
  | blocks bs holds => exact ⟨bs, holds⟩

/-- The client's bytes lie in the payload of a block. -/
theorem Holds.payload (holds : Holds L c bs) {p size : Nat} (live : (p, size) ∈ c.live) :
    ∃ x b, (x, b) ∈ place 9 L.heapStart bs ∧ b.owner = some size ∧ x + 5 = p ∧
      size ≤ b.size := by
  obtain ⟨x, here, b, placed, owner⟩ := (holds.live p size).mp live
  exact ⟨x, b, placed, owner, here, b.fits size owner⟩

theorem Sound.apart (sound : Sound L c) : c.live.Pairwise Apart := by
  cases sound with
  | empty _ none =>
      rw [none]
      exact List.Pairwise.nil
  | blocks bs holds => exact holds.apart

/-- One address is held with one size. -/
theorem Sound.held_once (sound : Sound L c) {p size other : Nat} (first : (p, size) ∈ c.live)
    (second : (p, other) ∈ c.live) : size = other := by
  obtain ⟨bs, holds⟩ := sound.holds first
  obtain ⟨x, b, placed, owner, here, _⟩ := holds.payload first
  obtain ⟨y, d, placed', owner', here', _⟩ := holds.payload second
  obtain rfl : y = x := by omega
  obtain rfl := place_functional (by decide : 0 < 9) placed placed'
  exact Option.some.inj (owner.symm.trans owner')

/-- An edit that takes away the owner at `gone` and adds those of `come` keeps
every other allocation. -/
theorem Holds.keeps (c' : Client) {bs' : List Block} {gone : Nat → Prop}
    {come : Nat → Nat → Prop} (holds : Holds L c bs) {p size : Nat}
    (edit : Edit 9 L.heapStart c.heap.mem c'.heap.mem bs bs' gone come)
    (live : (p, size) ∈ c.live) (stays : ∀ x, x + 5 = p → ¬ gone x) :
    (∃ x, x + 5 = p ∧ Owned 9 L.heapStart bs' x size) ∧
      ∀ a, p ≤ a → a < p + size → c'.heap.mem a = c.heap.mem a := by
  obtain ⟨x, b, placed, owner, here, fits⟩ := holds.payload live
  have owned : b.owner ≠ none := by
    rw [owner]
    exact Option.some_ne_none size
  obtain ⟨placed', same⟩ := edit.kept x b placed owned (stays x here)
  exact ⟨⟨x, here, b, placed', owner⟩, fun a lower upper => same a (by omega) (by omega)⟩

/-- An allocation adds one owner, apart from all others. -/
theorem Holds.received {bs' : List Block} {h : Heap} {x size : Nat} (holds : Holds L c bs)
    (rep : Represents L h bs')
    (edit : Edit 9 L.heapStart c.heap.mem h.mem bs bs' (fun _ => False)
      (fun y request => y = x ∧ request = size)) (call : Call) :
    Holds L (c.received (x + 5) size h) bs' ∧
      c.Keeps (c.received (x + 5) size h) call := by
  have list : (c.received (x + 5) size h).live = (x + 5, size) :: c.live := by
    simp [Client.received]
  have keeps : ∀ q other, (q, other) ∈ c.live →
      (∃ y, y + 5 = q ∧ Owned 9 L.heapStart bs' y other) ∧
        ∀ a, q ≤ a → a < q + other → h.mem a = c.heap.mem a := fun q other live =>
    holds.keeps (c.received (x + 5) size h) edit live (fun _ _ => id)
  refine ⟨⟨rep, ?_, ?_⟩, ?_⟩
  · intro q other
    rw [list, List.mem_cons, holds.live, Prod.mk.injEq]
    simp only [edit.owned, not_false_eq_true, and_true]
    constructor
    · rintro (⟨rfl, rfl⟩ | ⟨y, here, owned⟩)
      · exact ⟨x, rfl, Or.inr ⟨rfl, rfl⟩⟩
      · exact ⟨y, here, Or.inl owned⟩
    · rintro ⟨y, here, owned | ⟨rfl, rfl⟩⟩
      · exact Or.inr ⟨y, here, owned⟩
      · exact Or.inl ⟨here.symm, rfl⟩
  · rw [list, List.pairwise_cons]
    refine ⟨?_, holds.apart⟩
    rintro ⟨q, other⟩ live
    obtain ⟨⟨y, here, b', placed', owner'⟩, _⟩ := keeps q other live
    obtain ⟨b, placed, owner⟩ := (edit.owned x size).mpr (Or.inr ⟨rfl, rfl⟩)
    have room := b.fits size owner
    have room' := b'.fits other owner'
    unfold Apart
    rcases place_apart placed placed' with ⟨rfl, _⟩ | apart | apart
    · obtain ⟨z, place, owned⟩ := (holds.live q other).mp live
      obtain rfl : z = x := by omega
      exact (edit.fresh z size other ⟨rfl, rfl⟩ owned).elim
    · exact Or.inl (by simp only; omega)
    · exact Or.inr (by simp only; omega)
  · intro q other live _
    rw [list]
    exact ⟨List.mem_cons_of_mem _ live, (keeps q other live).2⟩

/-- The first call of all, on an empty heap. -/
theorem Holds.first (x size : Nat) {bs' : List Block} {h : Heap} (none : c.live = [])
    (rep : Represents L h bs')
    (owned : ∀ y request, Owned 9 L.heapStart bs' y request ↔ y = x ∧ request = size)
    (call : Call) :
    Holds L (c.received (x + 5) size h) bs' ∧
      c.Keeps (c.received (x + 5) size h) call := by
  have list : (c.received (x + 5) size h).live = [(x + 5, size)] := by
    simp [Client.received, none]
  refine ⟨⟨rep, ?_, ?_⟩, ?_⟩
  · intro q other
    rw [list, List.mem_singleton, Prod.mk.injEq]
    simp only [owned]
    constructor
    · rintro ⟨rfl, rfl⟩
      exact ⟨x, rfl, rfl, rfl⟩
    · rintro ⟨y, here, rfl, rfl⟩
      exact ⟨here.symm, rfl⟩
  · rw [list]
    exact List.pairwise_singleton _ _
  · intro q other live
    rw [none] at live
    cases live

theorem malloc_sound (size : Nat) (sound : Sound L c) (bounded : c.NoOverflow L (.malloc size)) :
    ∃ c', c.step L (.malloc size) = some c' ∧ Sound L c' ∧ c.Keeps c' (.malloc size) := by
  by_cases positive : size = 0
  · have same : c.received 0 size c.heap = c := by simp [Client.received]
    refine ⟨c, ?_, sound, fun p n live _ => ⟨live, fun _ _ _ => rfl⟩⟩
    simp only [step, malloc, positive, ↓reduceIte]
    rw [positive] at same
    rw [same]
  · have room := bounded positive
    cases sound with
    | empty heap none =>
        unfold mallocEnd at room
        rw [if_pos heap.start] at room
        obtain ⟨pointer, rep, _⟩ := firstBlock_represents size heap room
        obtain ⟨⟨p, h⟩, result⟩ :
          ∃ result, firstBlock L.heapStart size c.heap = result := ⟨_, rfl⟩
        rw [result] at pointer rep
        simp only at pointer rep
        subst pointer
        have first := Holds.first L.heapStart size none rep
          (fun y request => by simp [owned_cons, @eq_comm _ size]) (.malloc size)
        refine ⟨_, ?_, .blocks _ first.1, first.2⟩
        simp only [step, malloc, positive, heap.start, true_or, ↓reduceIte, result]
    | blocks bs holds =>
        obtain ⟨x, h, bs', result, _, rep, edit, _⟩ := malloc_represents holds.represents positive room
        have received := holds.received rep edit (.malloc size)
        refine ⟨_, ?_, .blocks bs' received.1, received.2⟩
        simp only [step, result]

/-- Where `malloc_pages` places its block, on an empty heap or after the last one. -/
theorem mallocPages_placed (pages : Nat) (positive : pages ≠ 0) (sound : Sound L c)
    (bounded : c.NoOverflow L (.mallocPages pages)) (gap : c.GapFits (.mallocPages pages)) :
    let result := mallocPages L.heapStart pages c.heap
    ∃ y bs', result.1 = y + 5 ∧ result.1 % 4096 = 0 ∧
      Holds L (c.received (y + 5) (4096 * pages) result.2) bs' ∧
      c.Keeps (c.received (y + 5) (4096 * pages) result.2) (.mallocPages pages) := by
  have room := bounded positive
  cases sound with
  | empty heap none =>
      rw [if_pos heap.start] at room
      obtain ⟨aligned, _, y, bs', pointer, rep, edit, _⟩ := mallocPages_first heap positive room
      exact ⟨y, bs', pointer, aligned, Holds.first y _ none rep
        (fun z request => by simp [edit.owned]) (.mallocPages pages)⟩
  | blocks bs holds =>
      have rep := holds.represents
      have low := L.heapStart_facts
      have used : c.heap.start ≠ 0 := by
        rw [rep.start]
        omega
      have fits := gap used
      rw [rep.lastBlock, sub32_of_le rep.inside rep.bound] at fits
      rw [if_neg used, rep.lastBlock] at room
      obtain ⟨aligned, _, _, y, bs', pointer, rep', edit, _⟩ :=
        mallocPages_represents rep rfl positive fits room
      exact ⟨y, bs', pointer, aligned, holds.received rep' edit (.mallocPages pages)⟩

theorem mallocPages_sound (pages : Nat) (sound : Sound L c)
    (bounded : c.NoOverflow L (.mallocPages pages)) (gap : c.GapFits (.mallocPages pages)) :
    ∃ c', c.step L (.mallocPages pages) = some c' ∧ Sound L c' ∧
      c.Keeps c' (.mallocPages pages) := by
  by_cases positive : pages = 0
  · have same : c.received 0 (4096 * 0) c.heap = c := by simp [Client.received]
    refine ⟨c, ?_, sound, fun p n live _ => ⟨live, fun _ _ _ => rfl⟩⟩
    simp only [step, mallocPages, positive, ↓reduceIte, same]
  · obtain ⟨y, bs', pointer, _, holds, keeps⟩ :=
      mallocPages_placed pages positive sound bounded gap
    refine ⟨_, ?_, .blocks bs' holds, keeps⟩
    simp only [step]
    rw [pointer]

theorem free_sound (ptr : Nat) (sound : Sound L c) (permitted : c.Permitted (.free ptr)) :
    ∃ c', c.step L (.free ptr) = some c' ∧ Sound L c' ∧ c.Keeps c' (.free ptr) := by
  refine ⟨_, rfl, ?_⟩
  rcases permitted with rfl | ⟨size, live⟩
  · have heap : free 0 c.heap = c.heap := by simp [free]
    have stays : c.live.filter (·.1 ≠ 0) = c.live := by
      rw [List.filter_eq_self]
      rintro ⟨p, size⟩ live
      obtain ⟨bs, holds⟩ := sound.holds live
      obtain ⟨x, b, _, _, here, _⟩ := holds.payload live
      simp only [decide_eq_true_eq]
      omega
    rw [heap, stays]
    exact ⟨sound, fun p n live _ => ⟨live, fun _ _ _ => rfl⟩⟩
  · obtain ⟨bs, holds⟩ := sound.holds live
    obtain ⟨x, here, owned⟩ := (holds.live ptr size).mp live
    subst here
    obtain ⟨bs', rep, edit, _⟩ := free_represents holds.represents owned
    refine ⟨.blocks bs' ⟨rep, ?_, holds.apart.filter _⟩, ?_⟩
    · intro q other
      simp only [List.mem_filter, decide_eq_true_eq, holds.live, edit.owned, or_false]
      constructor
      · rintro ⟨⟨y, rfl, owned'⟩, stays⟩
        exact ⟨y, rfl, owned', by omega⟩
      · rintro ⟨y, rfl, owned', stays⟩
        exact ⟨⟨y, rfl, owned'⟩, by omega⟩
    · intro q other held untouched
      have different : q ≠ x + 5 := by
        rintro rfl
        exact untouched .free
      have kept := holds.keeps ⟨free (x + 5) c.heap, c.live.filter (·.1 ≠ x + 5)⟩
        edit held (fun y place here => different (by omega))
      exact ⟨by simpa using ⟨held, different⟩, kept.2⟩

/-- The client may change the bytes it holds. -/
theorem Holds.overwrite (holds : Holds L c bs) {p size : Nat} (live : (p, size) ∈ c.live)
    {m : Memory} (same : SameOutside c.heap.mem m p (p + size)) :
    Holds L { c with heap := { c.heap with mem := m } } bs := by
  obtain ⟨x, b, placed, _, here, fits⟩ := holds.payload live
  exact ⟨holds.represents.overwrite placed (by omega) (by omega) same, holds.live, holds.apart⟩

theorem Sound.overwrite (sound : Sound L c) {p size : Nat} (live : (p, size) ∈ c.live)
    {m : Memory} (same : SameOutside c.heap.mem m p (p + size)) :
    Sound L { c with heap := { c.heap with mem := m } } := by
  obtain ⟨bs, holds⟩ := sound.holds live
  exact .blocks bs (holds.overwrite live same)

theorem store_sound (address : Nat) (value : UInt8) (sound : Sound L c)
    (permitted : c.Permitted (.store address value)) :
    ∃ c', c.step L (.store address value) = some c' ∧ Sound L c' ∧
      c.Keeps c' (.store address value) := by
  obtain ⟨p, size, live, lower, upper⟩ := permitted
  refine ⟨_, rfl, sound.overwrite live (sameOutside_store8 _ _ value _ _ lower upper), ?_⟩
  intro q other held untouched
  refine ⟨held, fun a low high => store8_ne _ _ _ _ ?_⟩
  rintro rfl
  exact untouched (.store a value low high)

/-- One call keeps the invariant, ends, and keeps what it does not touch. -/
theorem step_sound (call : Call) (sound : Sound L c) (allowed : Allowed L c call) :
    ∃ c', c.step L call = some c' ∧ Sound L c' ∧ c.Keeps c' call := by
  cases call with
  | malloc size => exact malloc_sound size sound allowed.bounded
  | mallocPages pages => exact mallocPages_sound pages sound allowed.bounded allowed.gap
  | free ptr => exact free_sound ptr sound allowed.permitted
  | store address value => exact store_sound address value sound allowed.permitted

theorem runs_sound {calls : List Call} {c' : Client} (runs : Runs L (Allowed L) c calls c')
    (sound : Sound L c) : Sound L c' := by
  induction runs with
  | nil c => exact sound
  | cons allowed stepped rest ih =>
      obtain ⟨d, stepped', sound', _⟩ := step_sound _ sound allowed
      rw [stepped] at stepped'
      cases stepped'
      exact ih sound'

/-- What no call of a run touches is held at its end, byte for byte. -/
theorem runs_keep {calls : List Call} {c' : Client} {p size : Nat}
    (runs : Runs L (Allowed L) c calls c') (sound : Sound L c) (live : (p, size) ∈ c.live)
    (untouched : ∀ call ∈ calls, ¬ Touches p size call) :
    (p, size) ∈ c'.live ∧ ∀ a, p ≤ a → a < p + size → c'.heap.mem a = c.heap.mem a := by
  induction runs with
  | nil c => exact ⟨live, fun _ _ _ => rfl⟩
  | @cons c d _ call calls allowed stepped rest ih =>
      obtain ⟨_, stepped', sound', keeps⟩ := step_sound _ sound allowed
      rw [stepped] at stepped'
      cases stepped'
      obtain ⟨live', same⟩ := keeps p size live (untouched call (List.mem_cons_self ..))
      obtain ⟨final, same'⟩ := ih sound' live'
        (fun other member => untouched other (List.mem_cons_of_mem _ member))
      exact ⟨final, fun a lower upper => (same' a lower upper).trans (same a lower upper)⟩

end Invariant

/-- A kernel that ends 1152 KiB into the fourth gigabyte. -/
def sampleLayout : Layout := ⟨0xC0120000, by decide, by decide⟩

/-- On it they leave a free block of 40 bytes between two of eight that are held. -/
def sampleCalls : List Call := [.malloc 8, .malloc 40, .malloc 8, .free 0xC0122016]

end Client

end Snfos.DynamicAllocation
