import Mathlib.Data.List.Chain

set_option autoImplicit false

/- Blocks laid end to end, each taking `overhead` bytes besides its payload.
What memory has to say about one block is a parameter (`tag`), so that the same
facts serve every header format. -/
namespace BlockChain

/-- A free block has no owner; an owned one keeps the size its owner asked for,
which its payload can hold. -/
structure Block where
  size : Nat
  owner : Option Nat
  fits : ∀ request, owner = some request → request ≤ size

namespace Block

def free (size : Nat) : Block := ⟨size, none, fun _ owned => nomatch owned⟩

def taken (size request : Nat) (fits : request ≤ size) : Block :=
  ⟨size, some request, fun _ owned => by cases owned; exact fits⟩

@[simp] theorem free_size (size : Nat) : (free size).size = size := rfl

@[simp] theorem free_owner (size : Nat) : (free size).owner = none := rfl

@[simp] theorem taken_size (size request : Nat) (fits : request ≤ size) :
    (taken size request fits).size = size := rfl

@[simp] theorem taken_owner (size request : Nat) (fits : request ≤ size) :
    (taken size request fits).owner = some request := rfl

end Block

def span (overhead : Nat) : List Block → Nat
  | [] => 0
  | b :: bs => overhead + b.size + span overhead bs

/-- No two neighbours are both free. -/
def Coalesced (bs : List Block) : Prop := bs.IsChain fun b c => b.owner ≠ none ∨ c.owner ≠ none

def UsedFirst (bs : List Block) : Prop := ∀ b ∈ bs.head?, b.owner ≠ none

def UsedLast (bs : List Block) : Prop := ∀ b ∈ bs.getLast?, b.owner ≠ none

theorem usedFirst_nil : UsedFirst [] := fun _ member => by cases member

theorem usedLast_nil : UsedLast [] := fun _ member => by cases member

theorem usedFirst_cons {b : Block} (used : b.owner ≠ none) (bs : List Block) :
    UsedFirst (b :: bs) := by
  intro c member
  cases member
  exact used

theorem usedLast_concat {b : Block} (used : b.owner ≠ none) (bs : List Block) :
    UsedLast (bs ++ [b]) := by
  intro c member
  rw [List.getLast?_concat] at member
  cases member
  exact used

theorem coalesced_nil : Coalesced [] := .nil

/-- A block may be free where its neighbours are used. -/
theorem coalesced_middle (front back : List Block) (b : Block) :
    Coalesced (front ++ [b] ++ back) ↔
      Coalesced front ∧ Coalesced back ∧ (b.owner = none → UsedLast front ∧ UsedFirst back) := by
  unfold Coalesced UsedFirst UsedLast
  rw [List.append_assoc, List.isChain_append, List.singleton_append, List.isChain_cons]
  constructor
  · rintro ⟨before, ⟨right, after⟩, left⟩
    exact ⟨before, after, fun free => ⟨fun c last => (left c last b rfl).resolve_right (absurd free),
      fun c first => (right c first).resolve_left (absurd free)⟩⟩
  · rintro ⟨before, after, beside⟩
    by_cases free : b.owner = none
    · obtain ⟨left, right⟩ := beside free
      refine ⟨before, ⟨fun c first => Or.inr (right c first), after⟩, fun c last d first => ?_⟩
      exact Or.inl (left c last)
    · refine ⟨before, ⟨fun c _ => Or.inl free, after⟩, fun c _ d first => ?_⟩
      cases first
      exact Or.inr free

theorem coalesced_cons (b : Block) (bs : List Block) :
    Coalesced (b :: bs) ↔ Coalesced bs ∧ (b.owner = none → UsedFirst bs) := by
  rw [show b :: bs = [] ++ [b] ++ bs from rfl, coalesced_middle]
  exact ⟨fun ⟨_, after, beside⟩ => ⟨after, fun free => (beside free).2⟩,
    fun ⟨after, beside⟩ => ⟨coalesced_nil, after, fun free => ⟨usedLast_nil, beside free⟩⟩⟩

theorem coalesced_concat (bs : List Block) (b : Block) :
    Coalesced (bs ++ [b]) ↔ Coalesced bs ∧ (b.owner = none → UsedLast bs) := by
  rw [← List.append_nil (bs ++ [b]), coalesced_middle]
  exact ⟨fun ⟨before, _, beside⟩ => ⟨before, fun free => (beside free).1⟩,
    fun ⟨before, beside⟩ => ⟨before, coalesced_nil, fun free => ⟨beside free, usedFirst_nil⟩⟩⟩

/-- Every block together with the address it starts at. -/
def place (overhead : Nat) : Nat → List Block → List (Nat × Block)
  | _, [] => []
  | a, b :: bs => (a, b) :: place overhead (a + (overhead + b.size)) bs

variable {overhead : Nat}

@[simp] theorem span_nil : span overhead [] = 0 := rfl

@[simp] theorem span_cons (b : Block) (bs : List Block) :
    span overhead (b :: bs) = overhead + b.size + span overhead bs := rfl

@[simp] theorem place_nil (a : Nat) : place overhead a [] = [] := rfl

@[simp] theorem place_cons (a : Nat) (b : Block) (bs : List Block) :
    place overhead a (b :: bs) = (a, b) :: place overhead (a + (overhead + b.size)) bs := rfl

@[simp] theorem span_append (xs ys : List Block) :
    span overhead (xs ++ ys) = span overhead xs + span overhead ys := by
  induction xs with
  | nil => simp
  | cons b xs ih =>
      simp only [List.cons_append, span_cons, ih]
      omega

@[simp] theorem place_append (a : Nat) (xs ys : List Block) :
    place overhead a (xs ++ ys) =
      place overhead a xs ++ place overhead (a + span overhead xs) ys := by
  induction xs generalizing a with
  | nil => simp
  | cons b xs ih => simp [ih, Nat.add_assoc]

theorem place_bounds {a x : Nat} {b : Block} {bs : List Block}
    (placed : (x, b) ∈ place overhead a bs) :
    a ≤ x ∧ x + (overhead + b.size) ≤ a + span overhead bs := by
  induction bs generalizing a with
  | nil => cases placed
  | cons c bs ih =>
      simp only [place_cons, List.mem_cons, Prod.mk.injEq] at placed
      simp only [span_cons]
      rcases placed with ⟨rfl, rfl⟩ | later
      · omega
      · have bounds := ih later
        omega

/-- Two placed blocks are the same one or take disjoint ranges. -/
theorem place_apart {a x y : Nat} {b c : Block} {bs : List Block}
    (first : (x, b) ∈ place overhead a bs) (second : (y, c) ∈ place overhead a bs) :
    (x = y ∧ b = c) ∨ x + (overhead + b.size) ≤ y ∨ y + (overhead + c.size) ≤ x := by
  induction bs generalizing a with
  | nil => cases first
  | cons d bs ih =>
      simp only [place_cons, List.mem_cons, Prod.mk.injEq] at first second
      rcases first with ⟨rfl, rfl⟩ | first <;> rcases second with ⟨rfl, rfl⟩ | second
      · exact Or.inl ⟨rfl, rfl⟩
      · exact Or.inr (Or.inl (place_bounds second).1)
      · exact Or.inr (Or.inr (place_bounds first).1)
      · exact ih first second

theorem place_functional {a x : Nat} {b c : Block} {bs : List Block} (positive : 0 < overhead)
    (first : (x, b) ∈ place overhead a bs) (second : (x, c) ∈ place overhead a bs) : b = c := by
  rcases place_apart first second with ⟨_, same⟩ | apart | apart
  · exact same
  · omega
  · omega

theorem mem_place_split {a x : Nat} {b : Block} {bs : List Block}
    (placed : (x, b) ∈ place overhead a bs) :
    ∃ before after, bs = before ++ b :: after ∧ x = a + span overhead before := by
  induction bs generalizing a with
  | nil => cases placed
  | cons c bs ih =>
      simp only [place_cons, List.mem_cons, Prod.mk.injEq] at placed
      rcases placed with ⟨rfl, rfl⟩ | later
      · exact ⟨[], bs, rfl, by simp⟩
      · obtain ⟨before, after, rfl, rfl⟩ := ih later
        exact ⟨c :: before, after, rfl, by simp only [span_cons]; omega⟩

theorem mem_place_middle (a : Nat) (before after : List Block) (b : Block) :
    (a + span overhead before, b) ∈ place overhead a (before ++ b :: after) := by
  simp

theorem mem_place_single (a : Nat) (before after : List Block) (b : Block) :
    (a + span overhead before, b) ∈ place overhead a (before ++ [b] ++ after) := by
  rw [List.append_assoc]
  exact mem_place_middle a before after b

theorem exists_split {bs : List Block} {k : Nat} (inside : k < bs.length) :
    ∃ front b back, bs = front ++ b :: back ∧ front.length = k := by
  refine ⟨bs.take k, bs[k], bs.drop (k + 1), ?_, ?_⟩
  · rw [List.getElem_cons_drop, List.take_append_drop]
  · rw [List.length_take]
    omega

/-- The block at `x` is owned by someone who asked for `request` bytes. -/
def Owned (overhead a : Nat) (bs : List Block) (x request : Nat) : Prop :=
  ∃ b, (x, b) ∈ place overhead a bs ∧ b.owner = some request

theorem owned_append (a : Nat) (xs ys : List Block) (x request : Nat) :
    Owned overhead a (xs ++ ys) x request ↔
      Owned overhead a xs x request ∨ Owned overhead (a + span overhead xs) ys x request := by
  simp only [Owned, place_append, List.mem_append, or_and_right, exists_or]

theorem owned_cons (a : Nat) (b : Block) (bs : List Block) (x request : Nat) :
    Owned overhead a (b :: bs) x request ↔
      (x = a ∧ b.owner = some request) ∨
        Owned overhead (a + (overhead + b.size)) bs x request := by
  simp only [Owned, place_cons, List.mem_cons, Prod.mk.injEq, or_and_right, exists_or]
  constructor
  · rintro (⟨c, ⟨rfl, rfl⟩, owned⟩ | later)
    · exact Or.inl ⟨rfl, owned⟩
    · exact Or.inr later
  · rintro (⟨rfl, owned⟩ | later)
    · exact Or.inl ⟨b, ⟨rfl, rfl⟩, owned⟩
    · exact Or.inr later

@[simp] theorem owned_nil (a x request : Nat) : ¬ Owned overhead a [] x request := by
  rintro ⟨b, placed, _⟩
  cases placed

/-- Memory describes every block of the chain that starts at `a`. -/
def Chain (overhead : Nat) (tag : Nat → Block → Prop) (a : Nat) (bs : List Block) : Prop :=
  ∀ x b, (x, b) ∈ place overhead a bs → tag x b

theorem chain_nil (tag : Nat → Block → Prop) (a : Nat) : Chain overhead tag a [] := by
  intro x b placed
  cases placed

theorem chain_cons (tag : Nat → Block → Prop) (a : Nat) (b : Block) (bs : List Block) :
    Chain overhead tag a (b :: bs) ↔
      tag a b ∧ Chain overhead tag (a + (overhead + b.size)) bs := by
  simp only [Chain, place_cons, List.mem_cons, Prod.mk.injEq]
  constructor
  · intro all
    exact ⟨all a b (Or.inl ⟨rfl, rfl⟩), fun x c placed => all x c (Or.inr placed)⟩
  · rintro ⟨here, rest⟩ x c (⟨rfl, rfl⟩ | placed)
    · exact here
    · exact rest x c placed

theorem chain_append (tag : Nat → Block → Prop) (a : Nat) (xs ys : List Block) :
    Chain overhead tag a (xs ++ ys) ↔
      Chain overhead tag a xs ∧ Chain overhead tag (a + span overhead xs) ys := by
  simp only [Chain, place_append, List.mem_append, or_imp, forall_and]

/-- An edit inside `[lo, hi)` leaves the description of blocks outside it. -/
def Frames (overhead : Nat) (before after : Nat → Block → Prop) (lo hi : Nat) : Prop :=
  ∀ x b, x + (overhead + b.size) ≤ lo ∨ hi ≤ x → before x b → after x b

/-- Replacing a run of blocks by another of the same extent, or the last run by
a shorter or longer one, only needs the new run to be described. -/
theorem Chain.replace {before after : Nat → Block → Prop} {a lo hi : Nat}
    {front old new back : List Block} (chain : Chain overhead before a (front ++ old ++ back))
    (frames : Frames overhead before after lo hi) (lower : lo = a + span overhead front)
    (upper : back = [] ∨
      (hi = lo + span overhead old ∧ span overhead new = span overhead old))
    (fresh : Chain overhead after lo new) : Chain overhead after a (front ++ new ++ back) := by
  simp only [chain_append] at chain ⊢
  obtain ⟨⟨keptFront, _⟩, keptBack⟩ := chain
  refine ⟨⟨?_, lower ▸ fresh⟩, ?_⟩
  · intro x b placed
    have bounds := place_bounds placed
    exact frames x b (Or.inl (by omega)) (keptFront x b placed)
  · rcases upper with rfl | ⟨extent, same⟩
    · exact chain_nil after _
    · intro x b placed
      have moved : (x, b) ∈ place overhead (a + span overhead (front ++ old)) back := by
        simpa only [span_append, same] using placed
      have bounds := place_bounds moved
      simp only [span_append] at bounds
      exact frames x b (Or.inr (by omega)) (keptBack x b moved)

/-- What an edit of the chain and of memory means to the owners: blocks in `gone`
lose theirs, `come` lists the new ones, none of them where an owner stays, and
every other owned block keeps its place and all its bytes. -/
structure Edit {β : Type} (overhead a : Nat) (m m' : Nat → β) (bs bs' : List Block)
    (gone : Nat → Prop) (come : Nat → Nat → Prop) : Prop where
  owned : ∀ x request, Owned overhead a bs' x request ↔
    (Owned overhead a bs x request ∧ ¬ gone x) ∨ come x request
  fresh : ∀ x request other, come x request → Owned overhead a bs x other → gone x
  kept : ∀ x b, (x, b) ∈ place overhead a bs → b.owner ≠ none → ¬ gone x →
    (x, b) ∈ place overhead a bs' ∧ ∀ i, x ≤ i → i < x + (overhead + b.size) → m' i = m i

section Edits

variable {β : Type} {m m' m'' : Nat → β} {a : Nat}

theorem owned_outside_run {lo : Nat} {front old back : List Block} {x request : Nat}
    (lower : lo = a + span overhead front) :
    Owned overhead a (front ++ old ++ back) x request ↔
      Owned overhead a front x request ∨ Owned overhead lo old x request ∨
        Owned overhead (lo + span overhead old) back x request := by
  subst lower
  simp only [owned_append, span_append, or_assoc, Nat.add_assoc]

/-- Replacing a run of blocks, with memory changed inside the run only. -/
theorem Edit.replace {lo hi : Nat} (front old new back : List Block) (positive : 0 < overhead)
    (lower : lo = a + span overhead front)
    (same : ∀ i, i < lo ∨ hi ≤ i → m' i = m i)
    (upper : back = [] ∨
      (hi = lo + span overhead old ∧ span overhead new = span overhead old)) :
    Edit overhead a m m' (front ++ old ++ back) (front ++ new ++ back)
      (fun x => ∃ request, Owned overhead lo old x request)
      (fun x request => Owned overhead lo new x request) := by
  have before : ∀ x b, (x, b) ∈ place overhead a front → x + (overhead + b.size) ≤ lo :=
    fun x b placed => lower ▸ (place_bounds placed).2
  have after : ∀ x b, (x, b) ∈ place overhead (lo + span overhead old) back →
      lo + span overhead old ≤ x := fun x b placed => (place_bounds placed).1
  have tail : place overhead (lo + span overhead new) back =
      place overhead (lo + span overhead old) back := by
    rcases upper with rfl | ⟨_, extent⟩
    · rfl
    · rw [extent]
  have within : ∀ x request, Owned overhead lo old x request →
      lo ≤ x ∧ x < lo + span overhead old := by
    rintro x request ⟨b, placed, _⟩
    have bounds := place_bounds placed
    omega
  constructor
  · intro x request
    have backSame : Owned overhead (lo + span overhead new) back x request ↔
        Owned overhead (lo + span overhead old) back x request := by
      unfold Owned
      rw [tail]
    rw [owned_outside_run lower, owned_outside_run lower, backSame]
    constructor
    · rintro (⟨b, placed, owned⟩ | fresh | ⟨b, placed, owned⟩)
      · refine Or.inl ⟨Or.inl ⟨b, placed, owned⟩, ?_⟩
        rintro ⟨other, inside⟩
        have low := before x b placed
        have range := within x other inside
        omega
      · exact Or.inr fresh
      · refine Or.inl ⟨Or.inr (Or.inr ⟨b, placed, owned⟩), ?_⟩
        rintro ⟨other, inside⟩
        have high := after x b placed
        have range := within x other inside
        omega
    · rintro (⟨first | middle | last, stays⟩ | fresh)
      · exact Or.inl first
      · exact absurd ⟨request, middle⟩ stays
      · exact Or.inr (Or.inr last)
      · exact Or.inr (Or.inl fresh)
  · rintro x request other ⟨b, placed, _⟩ owned
    have bounds := place_bounds placed
    rcases (owned_outside_run lower).mp owned with ⟨c, placed', _⟩ | middle | ⟨c, placed', _⟩
    · have low := before x c placed'
      omega
    · exact ⟨other, middle⟩
    · have high := after x c placed'
      rcases upper with rfl | ⟨_, extent⟩
      · cases placed'
      · omega
  · intro x b placed owned stays
    have shape : place overhead a (front ++ old ++ back) =
        place overhead a front ++ place overhead lo old ++
          place overhead (lo + span overhead old) back := by
      subst lower
      simp only [place_append, span_append, Nat.add_assoc]
    have shape' : place overhead a (front ++ new ++ back) =
        place overhead a front ++ place overhead lo new ++
          place overhead (lo + span overhead old) back := by
      rw [← tail]
      subst lower
      simp only [place_append, span_append, Nat.add_assoc]
    rw [shape] at placed
    rw [shape']
    simp only [List.mem_append] at placed ⊢
    rcases placed with (first | middle) | last
    · refine ⟨Or.inl (Or.inl first), fun i _ high => same i (Or.inl ?_)⟩
      have low := before x b first
      omega
    · obtain ⟨request, isOwned⟩ := Option.ne_none_iff_exists'.mp owned
      exact absurd ⟨request, b, middle, isOwned⟩ stays
    · refine ⟨Or.inr last, fun i low _ => same i (Or.inr ?_)⟩
      have high := after x b last
      rcases upper with rfl | ⟨extent, _⟩
      · cases last
      · omega

theorem Edit.refl (bs : List Block) :
    Edit overhead a m m bs bs (fun _ => False) (fun _ _ => False) :=
  ⟨by simp, fun _ _ _ none => none.elim, fun _ _ placed _ _ => ⟨placed, fun _ _ _ => rfl⟩⟩

/-- An edit that only removes owners, followed by one that changes none. -/
theorem Edit.trans {bs bs' bs'' : List Block} {gone : Nat → Prop} {come : Nat → Nat → Prop}
    (first : Edit overhead a m m' bs bs' gone come)
    (second : Edit overhead a m' m'' bs' bs'' (fun _ => False) (fun _ _ => False)) :
    Edit overhead a m m'' bs bs'' gone come := by
  constructor
  · intro x request
    rw [second.owned, first.owned]
    simp
  · exact first.fresh
  · intro x b placed owned stays
    obtain ⟨placed', same⟩ := first.kept x b placed owned stays
    obtain ⟨placed'', same'⟩ := second.kept x b placed' owned id
    exact ⟨placed'', fun i low high => (same' i low high).trans (same i low high)⟩

theorem Edit.congr {bs bs' : List Block} {gone gone' : Nat → Prop} {come come' : Nat → Nat → Prop}
    (edit : Edit overhead a m m' bs bs' gone come) (goneSame : ∀ x, gone x ↔ gone' x)
    (comeSame : ∀ x request, come x request ↔ come' x request) :
    Edit overhead a m m' bs bs' gone' come' := by
  have first : gone = gone' := funext fun x => propext (goneSame x)
  have second : come = come' := funext fun x => funext fun request => propext (comeSame x request)
  exact first ▸ second ▸ edit

end Edits

/-- The last block of the chain from `a` starts at `x`. -/
def Ends (overhead a : Nat) (bs : List Block) (x : Nat) : Prop :=
  ∃ front b, bs = front ++ [b] ∧ x = a + span overhead front

theorem ends_concat (a : Nat) (front : List Block) (b : Block) :
    Ends overhead a (front ++ [b]) (a + span overhead front) := ⟨front, b, rfl, rfl⟩

theorem Ends.eq_span {a x : Nat} {front : List Block} {b : Block}
    (ends : Ends overhead a (front ++ [b]) x) : x = a + span overhead front := by
  obtain ⟨others, c, same, rfl⟩ := ends
  rw [(List.append_inj' same rfl).1]

/-- The last block keeps its place when blocks before it are replaced by others
of the same extent. -/
theorem Ends.replace {a x : Nat} {front old new back : List Block}
    (ends : Ends overhead a (front ++ old ++ back) x) (tail : back ≠ [])
    (same : span overhead new = span overhead old) :
    Ends overhead a (front ++ new ++ back) x := by
  obtain ⟨rest, b, rfl⟩ := back.eq_nil_or_concat.resolve_left tail
  rw [List.concat_eq_append, ← List.append_assoc] at ends ⊢
  refine ⟨front ++ new ++ rest, b, rfl, ?_⟩
  rw [ends.eq_span]
  simp only [span_append, same]

theorem Ends.bounds {a x : Nat} {bs : List Block} (ends : Ends overhead a bs x) :
    (∃ b, (x, b) ∈ place overhead a bs ∧ x + (overhead + b.size) = a + span overhead bs) ∧
      ∀ y b, (y, b) ∈ place overhead a bs → y ≤ x := by
  obtain ⟨front, c, rfl, rfl⟩ := ends
  refine ⟨⟨c, by simp, ?_⟩, ?_⟩
  · simp only [span_append, span_cons, span_nil]
    omega
  · intro y b placed
    simp only [place_append, List.mem_append, place_cons, place_nil, List.mem_singleton,
      Prod.mk.injEq] at placed
    rcases placed with earlier | ⟨rfl, rfl⟩
    · have bounds := place_bounds earlier
      omega
    · exact Nat.le_refl _

end BlockChain
