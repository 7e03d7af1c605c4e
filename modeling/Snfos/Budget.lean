import Snfos.Kernel

set_option autoImplicit false

/- What the kernel asks of its heap, one request after the other: the states in which every one of
them is served. -/
namespace Snfos

inductive Request where
  | bytes (size : Nat)
  | pages (count : Nat)

namespace Allocator

variable {L : Layout} (A : Allocator L)

def serve : Request → A.Heap → Option (Nat × A.Heap)
  | .bytes size => A.malloc size
  | .pages count => A.mallocPages count

/-- The frames it may take to map what is past `h` in `h'`: one for each page, and one for a page
table. -/
def frames (h h' : A.Heap) : Nat := 2 * ((A.heapEnd h' - A.mappedEnd h) / 4096)

end Allocator

/-- What must hold of the heap, with so many frames left. -/
abbrev Machine.Budget (M : Machine) := M.allocator.Heap → Nat → Prop

namespace Machine

variable (M : Machine)

def nothing : M.Budget := fun _ _ => True

/-- The request is served, with frames for the pages it maps, and there is `rest` for the pointer
it returns. -/
def asks (r : Request) (rest : Nat → M.Budget) : M.Budget := fun h frames =>
  ∃ p h', M.allocator.serve r h = some (p, h') ∧ M.allocator.heapEnd h' ≤ M.limit ∧
    M.allocator.frames h h' ≤ frames ∧ rest p h' (frames - M.allocator.frames h h')

/-- There is `rest` once the block at `p` is given back. -/
def frees (p : Nat) (rest : M.Budget) : M.Budget := fun h =>
  rest (if p = 0 then h else M.allocator.free p h)

@[simp] theorem frees_nothing (p : Nat) : M.frees p M.nothing = M.nothing := rfl

theorem frees_null (rest : M.Budget) : M.frees 0 rest = rest := rfl

theorem frees_of_ne {p : Nat} (nonzero : p ≠ 0) (rest : M.Budget) :
    M.frees p rest = fun h => rest (M.allocator.free p h) := by
  funext h
  unfold frees
  rw [if_neg nonzero]

/-- No pages at all are served as the heap is. -/
theorem asks_none {rest : Nat → M.Budget} {h : M.allocator.Heap} {frames : Nat} :
    M.asks (.pages 0) rest h frames ↔ M.allocator.heapEnd h ≤ M.limit ∧ rest 0 h frames := by
  have zero : M.allocator.serve (.pages 0) h = some (0, h) := M.allocator.mallocPages_zero h
  have none : M.allocator.frames h h = 0 := by
    unfold Allocator.frames Allocator.mappedEnd
    split <;> omega
  unfold asks
  rw [zero]
  constructor
  · rintro ⟨p, h', served, inside, _, left⟩
    cases served
    rw [none, Nat.sub_zero] at left
    exact ⟨inside, left⟩
  · rintro ⟨inside, left⟩
    refine ⟨0, h, rfl, inside, none ▸ Nat.zero_le _, ?_⟩
    rwa [none, Nat.sub_zero]

section Calls

variable (rest : M.Budget)

/-- One page. -/
def pageAsks : M.Budget := M.asks (.pages 1) fun _ => rest

/-- `newTable`. An address space begins with a structure of the same size and a page, too. -/
def tableAsks : M.Budget := M.asks (.bytes 4100) fun _ => M.pageAsks rest

/-- `newSpace`. -/
def spaceAsks : M.Budget := M.tableAsks (M.tableAsks (M.tableAsks (M.tableAsks rest)))

/-- `loadCode`. -/
def codeAsks (module : Module) : M.Budget :=
  M.asks (.pages module.numCodePages) fun tempPages =>
    M.asks (.pages module.numCodePages) fun _ => M.frees tempPages rest

theorem codeAsks_empty {module : Module} (empty : module.numCodePages = 0) {h : M.allocator.Heap}
    {frames : Nat} :
    M.codeAsks rest module h frames ↔ M.allocator.heapEnd h ≤ M.limit ∧ rest h frames := by
  unfold codeAsks
  rw [empty, asks_none, asks_none, frees_null]
  exact and_iff_right_of_imp And.left

def loadAsks (module : Module) : M.Budget :=
  M.spaceAsks (M.pageAsks (M.pageAsks (M.codeAsks rest module)))

/-- `argumentsPage`. -/
def argumentsAsks : M.Budget := M.tableAsks (M.pageAsks rest)

/-- `linkProcess`. -/
def linkAsks : M.Budget := M.asks (.bytes 68) fun _ => rest

def addAsks : M.Budget := M.linkAsks (M.argumentsAsks rest)

end Calls

end Machine

end Snfos
