import Snfos.HeapLimits
import Snfos.HeapSafety
import Mathlib.Logic.Relation

set_option autoImplicit false

/- `calloc` and `realloc`, with the `memset` and `memcpy` they call, and the runs of a
client that uses them too. -/
namespace Snfos.DynamicAllocation

open ByteMemory BlockChain

/-- `memset`, one byte after the other. -/
def memset (buf : Nat) (value : UInt8) : Nat → Memory → Memory
  | 0, m => m
  | n + 1, m =>
      let m := memset buf value n m
      store8 m (u32 (buf + n)) value

/-- `memcpy`, and the addresses it reads. -/
def memcpy (dst src : Nat) : Nat → Memory → Memory × List Nat
  | 0, m => (m, [])
  | n + 1, m =>
      let (m, reads) := memcpy dst src n m
      (store8 m (u32 (dst + n)) (m (u32 (src + n))), reads ++ [u32 (src + n)])

/-- `calloc`. `memset` gets `size`, not the product. -/
def calloc (heapStart n size : Nat) (h : Heap) : Option (Nat × Heap) := do
  let (ptr, h) ← malloc heapStart (u32 (n * size)) h
  some (ptr, if ptr ≠ 0 then { h with mem := memset ptr 0 size h.mem } else h)

/-- `realloc`, and the addresses its `memcpy` reads. -/
def realloc (heapStart ptr size : Nat) (h : Heap) : Option (Nat × Heap × List Nat) := do
  let (newPtr, h) ← malloc heapStart size h
  let (m, reads) := memcpy newPtr ptr size h.mem
  some (newPtr, free ptr { h with mem := m }, reads)

theorem calloc_of_malloc {heapStart n size p : Nat} {h h' : Heap}
    (result : malloc heapStart (u32 (n * size)) h = some (p, h')) :
    calloc heapStart n size h =
      some (p, if p ≠ 0 then { h' with mem := memset p 0 size h'.mem } else h') := by
  unfold calloc
  rw [result]
  rfl

theorem realloc_of_malloc {heapStart ptr size p : Nat} {h h' : Heap}
    (result : malloc heapStart size h = some (p, h')) :
    realloc heapStart ptr size h = some (p, free ptr { h' with mem := (memcpy p ptr size h'.mem).1 },
      (memcpy p ptr size h'.mem).2) := by
  unfold realloc
  rw [result]
  rfl

section Copies

variable {m : Memory} {dst src n a : Nat}

theorem memset_at {buf : Nat} (value : UInt8) (bound : buf + n ≤ 2 ^ 32) :
    memset buf value n m a = if buf ≤ a ∧ a < buf + n then value else m a := by
  induction n with
  | zero =>
    rw [if_neg (by omega)]
    rfl
  | succ n ih =>
    unfold memset
    dsimp only
    rw [u32_of_lt (by omega)]
    unfold store8
    rw [ih (by omega)]
    by_cases last : a = buf + n
    · rw [if_pos last, if_pos (by omega)]
    · rw [if_neg last]
      by_cases inside : buf ≤ a ∧ a < buf + n
      · rw [if_pos inside, if_pos (by omega)]
      · rw [if_neg inside, if_neg (by omega)]

theorem memcpy_reads (m : Memory) (dst src n : Nat) :
    (memcpy dst src n m).2 = (List.range n).map fun i => u32 (src + i) := by
  induction n with
  | zero => rfl
  | succ n ih =>
    show (memcpy dst src n m).2 ++ [u32 (src + n)] = _
    rw [ih, List.range_succ, List.map_append, List.map_singleton]

theorem memset_sameOutside {buf : Nat} (m : Memory) (value : UInt8) (bound : buf + n ≤ 2 ^ 32) :
    SameOutside m (memset buf value n m) buf (buf + n) := by
  intro a outside
  rw [memset_at value bound, if_neg (by omega)]

theorem memcpy_outside (bound : dst + n ≤ 2 ^ 32) (outside : a < dst ∨ dst + n ≤ a) :
    (memcpy dst src n m).1 a = m a := by
  induction n with
  | zero => rfl
  | succ n ih =>
    show store8 (memcpy dst src n m).1 (u32 (dst + n)) _ a = m a
    rw [u32_of_lt (by omega), store8_ne _ _ _ _ (by omega), ih (by omega) (by omega)]

theorem memcpy_sameOutside (m : Memory) (bound : dst + n ≤ 2 ^ 32) :
    SameOutside m (memcpy dst src n m).1 dst (dst + n) :=
  fun _ outside => memcpy_outside bound outside

/-- A byte whose source is no part of what is written arrives as it was. -/
theorem memcpy_inside (bound : dst + n ≤ 2 ^ 32) {i : Nat} (inside : i < n)
    (apart : u32 (src + i) < dst ∨ dst + n ≤ u32 (src + i)) :
    (memcpy dst src n m).1 (dst + i) = m (u32 (src + i)) := by
  induction n with
  | zero => omega
  | succ n ih =>
    show store8 (memcpy dst src n m).1 (u32 (dst + n)) ((memcpy dst src n m).1 (u32 (src + n)))
      (dst + i) = _
    rw [u32_of_lt (n := dst + n) (by omega)]
    by_cases last : i = n
    · rw [last, store8_at]
      rw [last] at apart
      exact memcpy_outside (by omega) (by omega)
    · rw [store8_ne _ _ _ _ (by omega)]
      exact ih (by omega) (by omega) (by omega)

end Copies

/-- Where `malloc` places a block: the first free one that fits, or past the last one. -/
def firstFit (heapStart size : Nat) (h : Heap) : Nat :=
  if h.start = 0 then heapStart + 5
  else
    match search h.mem h.endPtr size (2 ^ 32) h.start with
    | some (some block) => block + 5
    | _ => nextBlock h.mem h.endPtr + 5

section Payloads

variable {L : Layout} {h : Heap} {bs : List Block} {size : Nat}

theorem firstBlock_payload (empty : Empty h) (room : firstEnd L.heapStart size < 2 ^ 32) {a : Nat}
    (lower : L.heapStart + 5 ≤ a) (upper : a < L.heapStart + 5 + size) :
    (firstBlock L.heapStart size h).2.mem a = h.mem a := by
  obtain ⟨pages, pagesIs⟩ : ∃ pages, pages = numPages h.start (endBlock h.start size) := ⟨_, rfl⟩
  have block : (allocPage L.heapStart pages h).1 = L.heapStart := by
    unfold allocPage
    rw [if_pos empty.allocEnd]
  have mem : (allocPage L.heapStart pages h).2.mem = h.mem := rfl
  unfold firstEnd at room
  unfold firstBlock
  dsimp only
  rw [← pagesIs, block, mem]
  exact write_payload h.mem L.heapStart true (by omega) lower upper

theorem extend_payload (rep : Represents L h bs)
    (room : grownEnd h.heapEnd (L.heapStart + span 9 bs) size < 2 ^ 32) {a : Nat}
    (lower : L.heapStart + span 9 bs + 5 ≤ a) (upper : a < L.heapStart + span 9 bs + 5 + size) :
    (extend L.heapStart size h).2.mem a = h.mem a := by
  have covers := (grownEnd_covers size rep.inside).1
  have written := write_payload h.mem (L.heapStart + span 9 bs) true (by omega) lower upper
  unfold extend
  dsimp only
  rw [rep.lastBlock]
  split <;> exact written

theorem malloc_hit (rep : Represents L h bs) (positive : size ≠ 0) {block : Nat}
    (found : search h.mem h.endPtr size (2 ^ 32) h.start = some (some block)) :
    malloc L.heapStart size h = some (reuse block size h) ∧
      firstFit L.heapStart size h = block + 5 := by
  unfold malloc firstFit
  rw [if_neg positive, if_neg rep.used, if_neg fun zero => rep.used (Or.inl zero), found]
  exact ⟨rfl, rfl⟩

theorem malloc_miss (rep : Represents L h bs) (positive : size ≠ 0)
    (found : search h.mem h.endPtr size (2 ^ 32) h.start = some none) :
    malloc L.heapStart size h = some (extend L.heapStart size h) ∧
      firstFit L.heapStart size h = L.heapStart + span 9 bs + 5 ∧
      mallocEnd L.heapStart size h = grownEnd h.heapEnd (L.heapStart + span 9 bs) size := by
  unfold malloc firstFit mallocEnd
  rw [if_neg positive, if_neg rep.used, if_neg fun zero => rep.used (Or.inl zero),
    if_neg fun zero => rep.used (Or.inl zero), found, rep.lastBlock]
  exact ⟨rfl, rfl, rfl⟩

/-- Where `malloc` finds room it places the block there and leaves its bytes as they are. -/
theorem malloc_payload (formed : WellFormed L h) (positive : size ≠ 0)
    (room : mallocEnd L.heapStart size h < 2 ^ 32) :
    ∃ h', malloc L.heapStart size h = some (firstFit L.heapStart size h, h') ∧
      ∀ a, firstFit L.heapStart size h ≤ a → a < firstFit L.heapStart size h + size →
        h'.mem a = h.mem a := by
  rcases formed with empty | ⟨bs, rep⟩
  · unfold mallocEnd at room
    rw [if_pos empty.start] at room
    have pointer := (firstBlock_represents size empty room).1
    have place : firstFit L.heapStart size h = L.heapStart + 5 := by
      unfold firstFit
      rw [if_pos empty.start]
    have result : malloc L.heapStart size h = some (firstBlock L.heapStart size h) := by
      unfold malloc
      rw [if_neg positive, if_pos (Or.inl empty.start)]
    rw [place, result]
    exact ⟨_, congrArg some (Prod.ext pointer rfl), fun a => firstBlock_payload empty room⟩
  · obtain ⟨result, found, outcome⟩ := rep.search size
    cases outcome with
    | hit front back b split free fit =>
      obtain ⟨called, place⟩ := malloc_hit rep positive found
      subst split
      have rep' : Represents L h (front ++ [b] ++ back) := by simpa using rep
      obtain ⟨pointer, _, _, payload⟩ := reuse_represents size rep' rfl fit
      obtain ⟨⟨p, h'⟩, result⟩ :
        ∃ result, reuse (L.heapStart + span 9 front) size h = result := ⟨_, rfl⟩
      rw [result] at called pointer payload
      simp only at pointer payload
      subst pointer
      rw [place]
      exact ⟨h', called, payload⟩
    | miss =>
      obtain ⟨called, place, finish⟩ := malloc_miss rep positive found
      rw [finish] at room
      have pointer := (extend_represents size rep rfl room).1
      rw [called, place]
      exact ⟨_, congrArg some (Prod.ext pointer rfl), fun a => extend_payload rep room⟩

end Payloads

namespace Client

/-- What a client asks for, `calloc` and `realloc` included. -/
inductive Request where
  | call (call : Call)
  | calloc (n size : Nat)
  | realloc (ptr size : Nat)

/-- `calloc` hands out as many bytes as it asked `malloc` for. -/
def request (L : Layout) (c : Client) : Request → Option Client
  | .call call => c.step L call
  | .calloc n size =>
      match calloc L.heapStart n size c.heap with
      | none => none
      | some (p, h) => some (c.received p (u32 (n * size)) h)
  | .realloc ptr size =>
      match realloc L.heapStart ptr size c.heap with
      | none => none
      | some (p, h, _) =>
          some ⟨h, (c.received p size h).live.filter (·.1 ≠ ptr)⟩

/-- Pointers are held, and no address or product the request computes reaches `2 ^ 32`. -/
def Admitted (L : Layout) (c : Client) : Request → Prop
  | .call call => Allowed L c call
  | .calloc n size => u32 (n * size) = 0 ∨ n * size < 2 ^ 32 ∧ c.NoOverflow L (.malloc (n * size))
  | .realloc ptr size => c.Permitted (.free ptr) ∧ c.NoOverflow L (.malloc size)

/-- What requests lead to from a heap that was never used. -/
def Reached (L : Layout) (m : Memory) : Client → Prop :=
  Relation.ReflTransGen (fun c c' => ∃ r, Admitted L c r ∧ c.request L r = some c') (boot m)

section Requests

variable {L : Layout} {c : Client}

/-- What is held lies above the kernel and below the last address. -/
theorem Sound.bounds (sound : Sound L c) {p size : Nat} (live : (p, size) ∈ c.live) :
    L.heapStart + 5 ≤ p ∧ p + size + 4 ≤ c.heap.heapEnd ∧ c.heap.heapEnd < 2 ^ 32 := by
  obtain ⟨bs, holds⟩ := sound.holds live
  have inside := holds.inside live
  exact ⟨inside.1, inside.2, holds.represents.bound⟩

/-- What a call of `malloc` with room gives its client: NULL for no bytes, and otherwise
one more allocation. Nothing held before changes. -/
structure Served (L : Layout) (c : Client) (size p : Nat) (h : Heap) : Prop where
  sound : Sound L (c.received p size h)
  null : p = 0 ↔ size = 0
  live : c.live ⊆ (c.received p size h).live
  kept : ∀ q other, (q, other) ∈ c.live → ∀ a, q ≤ a → a < q + other → h.mem a = c.heap.mem a

theorem firstFit_pos (heapStart size : Nat) (h : Heap) : firstFit heapStart size h ≠ 0 := by
  unfold firstFit
  split
  · omega
  · split <;> omega

theorem malloc_served (sound : Sound L c) {size : Nat} (bounded : c.NoOverflow L (.malloc size)) :
    ∃ p h, malloc L.heapStart size c.heap = some (p, h) ∧ Served L c size p h := by
  obtain ⟨c', stepped, sound', keeps⟩ := malloc_sound size sound bounded
  have untouched : ∀ q other, ¬Touches q other (.malloc size) := fun _ _ touches => by cases touches
  obtain ⟨p, h, result, null⟩ : ∃ p h, malloc L.heapStart size c.heap = some (p, h) ∧
      (p = 0 ↔ size = 0) := by
    by_cases none : size = 0
    · refine ⟨0, c.heap, ?_, by omega⟩
      unfold malloc
      rw [if_pos none]
    · obtain ⟨h, result, _⟩ := malloc_payload sound.wellFormed none (bounded none)
      have positive := firstFit_pos L.heapStart size c.heap
      exact ⟨_, h, result, by omega⟩
  unfold step at stepped
  simp only [result, Option.some.injEq] at stepped
  subst stepped
  exact ⟨p, h, result, sound', null, fun held live => (keeps _ _ live (untouched _ _)).1,
    fun q other live => (keeps q other live (untouched q other)).2⟩

namespace Served

variable {size p : Nat} {h : Heap}

theorem mem (served : Served L c size p h) (positive : size ≠ 0) :
    (p, size) ∈ (c.received p size h).live := by
  have some : p ≠ 0 := fun zero => positive (served.null.mp zero)
  unfold received
  rw [if_neg some]
  exact List.mem_cons_self ..

theorem bound (served : Served L c size p h) : p + size < 2 ^ 32 := by
  by_cases none : size = 0
  · have zero := served.null.mpr none
    omega
  · have bounds := served.sound.bounds (served.mem none)
    omega

/-- The bytes just handed out may be written. -/
theorem overwrite (served : Served L c size p h) {m : Memory}
    (same : SameOutside h.mem m p (p + size)) :
    Sound L (c.received p size { h with mem := m }) := by
  by_cases none : size = 0
  · have untouched : m = h.mem := funext fun a => same a (by omega)
    rw [untouched]
    exact served.sound
  · exact served.sound.overwrite (served.mem none) same

end Served

theorem calloc_sound {n size : Nat} (sound : Sound L c) (admitted : Admitted L c (.calloc n size)) :
    ∃ c', c.request L (.calloc n size) = some c' ∧ Sound L c' := by
  have bounded : c.NoOverflow L (.malloc (u32 (n * size))) := by
    intro positive
    rcases admitted with none | ⟨small, room⟩
    · exact absurd none positive
    · rw [u32_of_lt small] at positive ⊢
      exact room positive
  obtain ⟨p, h, result, served⟩ := malloc_served sound bounded
  have called := calloc_of_malloc result
  by_cases null : p = 0
  · rw [if_neg (not_not.mpr null)] at called
    refine ⟨c.received p (u32 (n * size)) h, ?_, served.sound⟩
    simp only [request, called]
  · rw [if_pos null] at called
    refine ⟨c.received p (u32 (n * size)) { h with mem := memset p 0 size h.mem }, ?_,
      served.overwrite ?_⟩
    · simp only [request, called]
    -- `memset` stays inside the block: its length divides the product
    have inside : size ≤ u32 (n * size) := by
      rcases admitted with none | ⟨small, _⟩
      · exact absurd (served.null.mpr none) null
      · rw [u32_of_lt small] at served ⊢
        refine Nat.le_mul_of_pos_left size (Nat.pos_of_ne_zero fun zero => ?_)
        exact null (served.null.mpr (by rw [zero, Nat.zero_mul]))
    have bound := served.bound
    exact (memset_sameOutside h.mem 0 (by omega)).mono (Nat.le_refl p) (by omega)

theorem realloc_sound {ptr size : Nat} (sound : Sound L c)
    (admitted : Admitted L c (.realloc ptr size)) :
    ∃ c', c.request L (.realloc ptr size) = some c' ∧ Sound L c' := by
  obtain ⟨permitted, bounded⟩ := admitted
  obtain ⟨p, h, result, served⟩ := malloc_served sound bounded
  have bound := served.bound
  have same : SameOutside h.mem (memcpy p ptr size h.mem).1 p (p + size) :=
    memcpy_sameOutside h.mem (Nat.le_of_lt bound)
  have copied := served.overwrite same
  have permitted' : (c.received p size { h with mem := (memcpy p ptr size h.mem).1 }).Permitted
      (.free ptr) := permitted.imp id fun ⟨n, live⟩ => ⟨n, served.live live⟩
  obtain ⟨c', stepped, sound', _⟩ := free_sound ptr copied permitted'
  refine ⟨c', ?_, sound'⟩
  rw [← stepped]
  simp only [request, realloc_of_malloc result, step]
  rfl

/-- Every request that is admitted ends, and keeps the heap in order. -/
theorem request_sound (r : Request) (sound : Sound L c) (admitted : Admitted L c r) :
    ∃ c', c.request L r = some c' ∧ Sound L c' := by
  cases r with
  | call call =>
    obtain ⟨c', stepped, sound', _⟩ := step_sound call sound admitted
    exact ⟨c', stepped, sound'⟩
  | calloc n size => exact calloc_sound sound admitted
  | realloc ptr size => exact realloc_sound sound admitted

theorem Reached.runs {m : Memory} {calls : List Call} {c' : Client} (reached : Reached L m c)
    (runs : Runs L (Allowed L) c calls c') : Reached L m c' := by
  induction runs with
  | nil => exact reached
  | cons allowed stepped _ ih => exact ih (reached.tail ⟨.call _, allowed, stepped⟩)

theorem Reached.sound {m : Memory} (reached : Reached L m c) : Sound L c := by
  induction reached with
  | refl => exact boot_sound L m
  | tail _ stepped ih =>
    obtain ⟨r, admitted, result⟩ := stepped
    obtain ⟨c', result', sound'⟩ := request_sound r ih admitted
    rw [result] at result'
    cases result'
    exact sound'

end Requests

end Client

end Snfos.DynamicAllocation
