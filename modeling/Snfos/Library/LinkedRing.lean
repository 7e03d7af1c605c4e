import Mathlib.Data.List.Cycle
import Mathlib.Data.List.Iterate

set_option autoImplicit false

/- Circular doubly linked lists. The nodes are those of a list, in order, and the
links are two functions on nodes. -/

variable {α : Type*}

/-- `y` comes after `x`. -/
def Link (next prev : α → α) (x y : α) : Prop := next x = y ∧ prev y = x

/-- The nodes of `l`, each once, form one circle in this order. -/
structure LinkedRing (next prev : α → α) (l : List α) : Prop where
  nodup : l.Nodup
  chain : Cycle.Chain (Link next prev) (l : Cycle α)

namespace LinkedRing

variable {next prev : α → α} {l l' : List α} {x first last : α}

theorem nil : LinkedRing next prev ([] : List α) := ⟨.nil, trivial⟩

theorem rotate (ring : LinkedRing next prev l) (rotated : l ~r l') : LinkedRing next prev l' := by
  refine ⟨(rotated.nodup_iff).mp ring.nodup, ?_⟩
  rw [← Cycle.coe_eq_coe.mpr rotated]
  exact ring.chain

/-- A circle is a path from its first node to its last, and the link that closes it. -/
theorem iff_path : LinkedRing next prev (l ++ [last]) ↔ (l ++ [last]).Nodup ∧
    (l ++ [last]).IsChain (Link next prev) ∧
      ∀ first ∈ (l ++ [last]).head?, Link next prev last first := by
  have chain : Cycle.Chain (Link next prev) (l ++ [last] : Cycle α) ↔
      (l ++ [last]).IsChain (Link next prev) ∧
        ∀ first ∈ (l ++ [last]).head?, Link next prev last first := by
    cases l with
    | nil => simp
    | cons a m =>
        rw [List.cons_append, Cycle.chain_coe_cons, List.append_assoc, ← List.cons_append,
          List.singleton_append, List.isChain_append_cons_cons]
        simp
  exact ⟨fun ring => ⟨ring.nodup, chain.mp ring.chain⟩, fun ⟨nodup, path⟩ => ⟨nodup, chain.mpr path⟩⟩

theorem singleton (self : next x = x) (back : prev x = x) : LinkedRing next prev [x] :=
  ⟨List.nodup_singleton x, by simp [Link, self, back]⟩

/-- Only the links of the nodes matter. -/
theorem congr {next' prev' : α → α} (ring : LinkedRing next prev l)
    (same : ∀ x ∈ l, next' x = next x ∧ prev' x = prev x) : LinkedRing next' prev' l := by
  rcases List.eq_nil_or_concat l with rfl | ⟨m, last, rfl⟩
  · exact nil
  rw [List.concat_eq_append] at ring same ⊢
  obtain ⟨nodup, path, closed⟩ := iff_path.mp ring
  have link : ∀ x ∈ m ++ [last], ∀ y ∈ m ++ [last], Link next prev x y → Link next' prev' x y := by
    intro x xMem y yMem link
    exact ⟨(same x xMem).1.trans link.1, (same y yMem).2.trans link.2⟩
  refine iff_path.mpr ⟨nodup, path.imp_of_mem_imp fun x y xMem yMem => link x xMem y yMem, ?_⟩
  intro first head
  exact link last (by simp) first (List.mem_of_mem_head? head) (closed first head)

/-- Every node can be the one a circle starts from. -/
theorem start (ring : LinkedRing next prev l) (member : x ∈ l) :
    ∃ rest, l ~r x :: rest ∧ LinkedRing next prev (x :: rest) := by
  obtain ⟨l₁, l₂, rfl⟩ := List.append_of_mem member
  have front : l₁ ++ x :: l₂ ~r x :: l₂ ++ l₁ := List.isRotated_append
  exact ⟨l₂ ++ l₁, front, ring.rotate front⟩

theorem next_mem (ring : LinkedRing next prev l) (member : x ∈ l) : next x ∈ l ∧ prev (next x) = x := by
  obtain ⟨rest, rotated, ring⟩ := ring.start member
  have chain := ring.chain
  rw [Cycle.chain_coe_cons, List.isChain_cons] at chain
  rw [rotated.mem_iff]
  cases rest with
  | nil =>
      obtain ⟨same, back⟩ := chain.1 x rfl
      rw [same]
      exact ⟨List.mem_cons_self .., back⟩
  | cons y rest =>
      obtain ⟨same, back⟩ := chain.1 y rfl
      rw [same]
      exact ⟨by simp, back⟩

/-- What comes after a node, in the list that starts behind it. -/
theorem next_head {l₁ l₂ : List α} (ring : LinkedRing next prev (l₁ ++ x :: l₂)) :
    (l₂ ++ l₁ ++ [x]).head? = some (next x) := by
  have front : l₁ ++ x :: l₂ ~r x :: (l₂ ++ l₁) := by
    rw [← List.cons_append]
    exact List.isRotated_append
  have chain := (ring.rotate front).chain
  rw [Cycle.chain_coe_cons] at chain
  cases others : l₂ ++ l₁ ++ [x] with
  | nil => simp at others
  | cons y rest =>
      rw [others, List.isChain_cons_cons] at chain
      rw [List.head?_cons, chain.1.1]

/-- What comes after the node at a place is at the next one, or at the first. -/
theorem next_getElem {i : Nat} (ring : LinkedRing next prev l) (place : l[i]? = some x) :
    l[(i + 1) % l.length]? = some (next x) := by
  obtain ⟨inside, here⟩ := List.getElem?_eq_some_iff.mp place
  have split : l = l.take i ++ x :: l.drop (i + 1) := by
    rw [← here, ← List.drop_eq_getElem_cons inside, List.take_append_drop]
  rw [split] at ring
  have head := ring.next_head
  cases after : l.drop (i + 1) with
  | nil =>
      have all : l.length ≤ i + 1 := List.drop_eq_nil_iff.mp after
      rw [show l.length = i + 1 by omega, Nat.mod_self]
      rw [after, List.nil_append] at head
      rw [split, after, ← List.head?_eq_getElem?]
      exact head
  | cons y rest =>
      have more : i + 1 < l.length := by
        by_contra none
        rw [List.drop_eq_nil_of_le (by omega)] at after
        cases after
      rw [Nat.mod_eq_of_lt more]
      rw [after, List.cons_append, List.cons_append, List.head?_cons] at head
      rw [← head, ← List.head?_drop, after, List.head?_cons]

/-- A node among others is not its own successor. -/
theorem next_ne {l₁ l₂ : List α} (ring : LinkedRing next prev (l₁ ++ x :: l₂)) (more : l₁ ++ l₂ ≠ []) :
    next x ≠ x := by
  have head := ring.next_head
  have nodup := ring.nodup
  intro same
  rw [same] at head
  cases others : l₂ ++ l₁ with
  | nil =>
      rw [List.append_eq_nil_iff] at others
      exact more (List.append_eq_nil_iff.mpr others.symm)
  | cons y rest =>
      rw [others, List.cons_append, List.head?_cons, Option.some.injEq] at head
      have member : x ∈ l₂ ++ l₁ := by
        rw [others, head]
        exact List.mem_cons_self
      rw [List.nodup_middle, List.nodup_cons, ← List.perm_append_comm.mem_iff] at nodup
      exact nodup.1 member

theorem prev_mem (ring : LinkedRing next prev l) (member : x ∈ l) : prev x ∈ l ∧ next (prev x) = x := by
  obtain ⟨rest, rotated, ring⟩ := ring.start member
  obtain ⟨m, last, split⟩ := (List.eq_nil_or_concat (x :: rest)).resolve_left (by simp)
  rw [List.concat_eq_append] at split
  rw [split] at ring rotated
  obtain ⟨close, back⟩ := (iff_path.mp ring).2.2 x (by rw [← split]; rfl)
  rw [back, rotated.mem_iff]
  exact ⟨by simp, close⟩

/-- The links followed from the first node lead to the others in order. -/
theorem iterate_path (path : (x :: l).IsChain (Link next prev)) :
    List.iterate next x (l.length + 1) = x :: l := by
  induction l generalizing x with
  | nil => rfl
  | cons y rest ih =>
      obtain ⟨link, path⟩ := List.isChain_cons_cons.mp path
      have step := ih path
      rw [List.length_cons, List.iterate, link.1, step]

/-- Following the links as often as there are nodes visits each once and comes back. -/
theorem visits (ring : LinkedRing next prev l) (member : x ∈ l) :
    List.iterate next (next x) l.length ~r l ∧ next^[l.length] x = x := by
  obtain ⟨rest, rotated, ring⟩ := ring.start member
  have chain := ring.chain
  rw [Cycle.chain_coe_cons] at chain
  have round := iterate_path chain
  rw [List.length_append, List.length_singleton, List.iterate] at round
  have onward := List.tail_eq_of_cons_eq round
  have length : l.length = rest.length + 1 := rotated.perm.length_eq
  rw [length, onward]
  refine ⟨(show rest ++ [x] ~r [x] ++ rest from List.isRotated_append).trans rotated.symm, ?_⟩
  rw [List.iterate_add, ← Function.iterate_succ_apply] at onward
  exact List.singleton_inj.mp (List.append_inj_right' onward rfl)

variable [DecidableEq α]

/-- A new node between the last node and the first. -/
theorem append (ring : LinkedRing next prev l) (head : l.head? = some first)
    (tail : l.getLast? = some last) (fresh : x ∉ l) :
    LinkedRing (Function.update (Function.update next x first) last x)
      (Function.update (Function.update prev x last) first x) (l ++ [x]) := by
  obtain ⟨m, rfl⟩ := List.getLast?_eq_some_iff.mp tail
  obtain ⟨nodup, path, closed⟩ := iff_path.mp ring
  have close := closed first head
  have firstMem : first ∈ m ++ [last] := List.mem_of_mem_head? head
  have lastMem : last ∈ m ++ [last] := by simp
  have notFirst : x ≠ first := fun same => fresh (same ▸ firstMem)
  have notLast : x ≠ last := fun same => fresh (same ▸ lastMem)
  refine iff_path.mpr ⟨?_, ?_, ?_⟩
  · exact List.nodup_append.mpr ⟨nodup, List.nodup_singleton x, by
      rintro a member b within rfl
      rw [List.mem_singleton] at within
      exact fresh (within ▸ member)⟩
  · rw [List.append_assoc, List.singleton_append, List.isChain_append_cons_cons]
    refine ⟨?_, ⟨?_, ?_⟩, .singleton x⟩
    · refine path.imp_of_mem_tail_imp fun a b aMem bTail link => ?_
      have bMem : b ∈ m ++ [last] := List.mem_of_mem_tail bTail
      have bFirst : b ≠ first := by
        rintro rfl
        cases split : m ++ [last] with
        | nil => rw [split] at bMem; cases bMem
        | cons c rest =>
            rw [split] at head bTail nodup
            cases head
            exact (List.nodup_cons.mp nodup).1 bTail
      have aLast : a ≠ last := by
        rintro rfl
        exact bFirst (link.1.symm.trans close.1)
      have aNew : a ≠ x := fun same => fresh (same ▸ aMem)
      have bNew : b ≠ x := fun same => fresh (same ▸ bMem)
      unfold Link
      rw [Function.update_of_ne aLast, Function.update_of_ne aNew, Function.update_of_ne bFirst,
        Function.update_of_ne bNew]
      exact link
    · rw [Function.update_self]
    · rw [Function.update_of_ne notFirst, Function.update_self]
  · intro f here
    rw [List.head?_append, head] at here
    cases here
    unfold Link
    rw [Function.update_of_ne notLast, Function.update_self, Function.update_self]
    exact ⟨rfl, rfl⟩

/-- The first of at least two nodes is taken out. -/
theorem tail (ring : LinkedRing next prev (x :: l)) (more : l ≠ []) :
    LinkedRing (Function.update next (prev x) (next x)) (Function.update prev (next x) (prev x)) l := by
  obtain ⟨m, last, rfl⟩ := List.eq_nil_or_concat l |>.resolve_left more
  rw [List.concat_eq_append] at ring ⊢
  rw [← List.cons_append] at ring
  obtain ⟨nodup, path, closed⟩ := iff_path.mp ring
  obtain ⟨close, back⟩ := closed x rfl
  rw [List.cons_append] at nodup path
  obtain ⟨absent, nodup⟩ := List.nodup_cons.mp nodup
  obtain ⟨begins, path⟩ := List.isChain_cons.mp path
  rw [back]
  refine iff_path.mpr ⟨nodup, ?_, ?_⟩
  · refine path.imp_of_mem_tail_imp fun a b aMem bTail link => ?_
    have aLast : a ≠ last := by
      rintro rfl
      apply absent
      rw [← close, link.1]
      exact List.mem_of_mem_tail bTail
    have bFirst : b ≠ next x := by
      rintro rfl
      cases split : m ++ [last] with
      | nil => rw [split] at bTail; cases bTail
      | cons c rest =>
          rw [split] at begins bTail nodup
          rw [(begins c rfl).1] at bTail
          exact (List.nodup_cons.mp nodup).1 bTail
    unfold Link
    rw [Function.update_of_ne aLast, Function.update_of_ne bFirst]
    exact link
  · intro first here
    obtain rfl := (begins first here).1
    unfold Link
    rw [Function.update_self, Function.update_self]
    exact ⟨rfl, rfl⟩

/-- Any of at least two nodes is taken out. -/
theorem remove {l₁ l₂ : List α} (ring : LinkedRing next prev (l₁ ++ x :: l₂)) (more : l₁ ++ l₂ ≠ []) :
    LinkedRing (Function.update next (prev x) (next x)) (Function.update prev (next x) (prev x))
      (l₁ ++ l₂) := by
  have front : l₁ ++ x :: l₂ ~r x :: (l₂ ++ l₁) := by
    rw [← List.cons_append]
    exact List.isRotated_append
  have others : l₂ ++ l₁ ≠ [] := fun none => more (by simp_all)
  exact ((ring.rotate front).tail others).rotate List.isRotated_append

/-- Where the circle without `x` starts. -/
theorem head_remove {l₁ l₂ : List α} (ring : LinkedRing next prev (l₁ ++ x :: l₂))
    (more : l₁ ++ l₂ ≠ []) (head : (l₁ ++ x :: l₂).head? = some first) :
    (l₁ ++ l₂).head? = some (if x = first then next x else first) := by
  cases l₁ with
  | nil =>
      cases head
      cases l₂ with
      | nil => exact absurd rfl more
      | cons y m =>
          have chain := ring.chain
          rw [List.nil_append, Cycle.chain_coe_cons] at chain
          rw [if_pos rfl, (List.isChain_cons_cons.mp chain).1.1]
          rfl
  | cons a m =>
      cases head
      have other : x ≠ first := by
        rintro rfl
        have nodup := ring.nodup
        simp at nodup
      rw [if_neg other]
      rfl

/-- Where the circle without `x` ends. -/
theorem getLast_remove {l₁ l₂ : List α} (ring : LinkedRing next prev (l₁ ++ x :: l₂))
    (more : l₁ ++ l₂ ≠ []) (tail : (l₁ ++ x :: l₂).getLast? = some last) :
    (l₁ ++ l₂).getLast? = some (if x = last then prev x else last) := by
  rcases List.eq_nil_or_concat l₂ with rfl | ⟨m, b, rfl⟩
  · rw [List.getLast?_concat] at tail
    cases tail
    rcases List.eq_nil_or_concat l₁ with rfl | ⟨m, y, rfl⟩
    · exact absurd rfl more
    · rw [List.concat_eq_append] at ring ⊢
      have path := (iff_path.mp ring).2.1
      rw [List.append_assoc, List.singleton_append, List.isChain_append_cons_cons] at path
      rw [if_pos rfl, path.2.1.2, List.append_nil, List.getLast?_concat]
  · rw [List.concat_eq_append] at ring tail ⊢
    rw [← List.cons_append, ← List.append_assoc, List.getLast?_concat] at tail
    cases tail
    have other : x ≠ last := by
      rintro rfl
      have nodup := ring.nodup
      simp [List.nodup_append] at nodup
    rw [if_neg other, ← List.append_assoc, List.getLast?_concat]

end LinkedRing
