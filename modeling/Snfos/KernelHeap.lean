import Snfos.SmallMachine

set_option autoImplicit false

/- The kernel heap in all address spaces: the 4 MiB that directories share, and what
happens when the heap outgrows them. -/
namespace Snfos

open ByteMemory

namespace Kernel

variable {M : Machine}

/-- The directory the processor runs on, or one of a live process. -/
def InUse (k : Kernel M) (d : Nat) : Prop := d = k.cr3 / 4096 ∨ ∃ p, k.spaceOf p = some d

section Window

variable {covered enough : Prop} {spare top d v : Nat} {k : Kernel M}

/-- A page past the shared table is mapped under no directory but the one it was mapped under. -/
theorem Space.page_mapper (space : Space top k d) (paging : Paging covered enough spare top k)
    (page : HeapPage M top v) (past : 0xC0400000 ≤ 4096 * v)
    (mapped : (Snfos.translate k.ram d (4096 * v)).isSome = true) : k.mapper v = d := by
  obtain ⟨lower, upper⟩ := page.bounds paging.upper
  have slot : 4096 * v / 2 ^ 22 = v / 1024 := by omega
  have index : 4096 * v / 4096 % 1024 = v % 1024 := by omega
  unfold Snfos.translate at mapped
  rw [slot, index] at mapped
  rcases space.table lower upper with ⟨absent, _⟩ | ⟨t, present, _⟩
  · rw [absent] at mapped
    cases mapped
  · rcases space.page_entry paging page present with ⟨zero, _⟩ | ⟨_, shared | mapper⟩
    · have frame : (4096 * t + 3) / 4096 = t := by omega
      simp only [present, frame, zero, Nat.zero_mod, ↓reduceIte, ite_self, Option.isSome_none,
        Bool.false_eq_true] at mapped
    · omega
    · exact mapper

end Window

end Kernel

namespace System

open Kernel

section Sharing

variable {M : Machine} {s : System M} {w : Estates} {order : List Nat} {d : Nat}

theorem Sound.in_use (sound : Sound s w order) (used : InUse s.kernel d) :
    Space s.kernel.mappedEnd s.kernel d := by
  rcases used with rfl | ⟨p, live⟩
  · exact sound.accounts.paging.current
  · obtain ⟨o, b, m, _, owner, ready, _, rfl⟩ := sound.space live
    exact sound.accounts.directories o owner _ _ ready.laid.directory ready.final

/-- After any calls: while the heap has not outgrown the shared table, every directory in use
maps each of its pages to the page's one frame. Of any page that one of two such directories
maps, the other maps it to the same frame exactly if the page lies in the shared table. -/
theorem run_shares (calls : List Call) :
    Command.Ensures (Stops M) (boot M) (run calls) fun _ s =>
      (M.allocator.heapEnd s.kernel.heap ≤ 0xC0400000 → ∀ d, InUse s.kernel d →
        ∀ v, HeapPage M s.kernel.mappedEnd v →
          translate s.kernel.ram d (4096 * v) = some (s.kernel.home v, 0)) ∧
      ∀ d d', InUse s.kernel d → InUse s.kernel d' → d ≠ d' →
        ∀ v place, HeapPage M s.kernel.mappedEnd v →
          translate s.kernel.ram d (4096 * v) = some place →
            (translate s.kernel.ram d' (4096 * v) = some place ↔ 4096 * v < 0xC0400000) := by
  apply (boot_sound.run calls).mono
  rintro _ s ⟨w, order, sound⟩
  have paging := sound.accounts.paging
  constructor
  · intro bound d used v page
    exact (sound.in_use used).translate_page paging page (page.inside_window bound)
  · intro d d' used used' different v place page found
    constructor
    · intro found'
      by_contra past
      have mapper := (sound.in_use used).page_mapper paging page (by omega) (by rw [found]; rfl)
      have mapper' := (sound.in_use used').page_mapper paging page (by omega) (by rw [found']; rfl)
      exact different (mapper.symm.trans mapper')
    · intro window
      rw [(sound.in_use used).translate_page paging page window] at found
      rw [(sound.in_use used').translate_page paging page window, ← found]

end Sharing

section Outgrown

/-- With two processes loaded, a run of the first and 767 pages more, the first one's directory
maps a page that the second one's does not. -/
theorem heap_outgrows : ∃ (M : Machine) (calls : List Call) (returns : List (Option Resumed))
    (s : System M), run calls (boot M) = .ok (returns, s) ∧ ∃ v p d,
      HeapPage M s.kernel.mappedEnd v ∧ Mapped s.kernel v ∧ s.kernel.spaceOf p = some d ∧
        translate s.kernel.ram d (4096 * v) = none := by
  let M := smallMachine 0xC0800000 (by decide)
  have short : M.Short := SmallMachine.short
  have arguments : Arguments := ⟨0, [], 0, 0, by decide⟩
  have before : Process := ⟨⟨⟨0, 0, 0, 0, 0, 0, 0⟩, ⟨0, 0, 0, 0, 0⟩⟩, 0, false, 0, 0, 0⟩
  have funded : Funded (M.Room SmallMachine.Ready 52 1124) (boot M).kernel :=
    SmallMachine.boot_funded 1124 (by decide) (by decide)
  replace funded := funded.spend (SmallMachine.ample.load SmallMachine.firstModule (n := 1086)
    (SmallMachine.ample.add (n := 1074) (SmallMachine.ample.load SmallMachine.secondModule (n := 1036)
      (SmallMachine.ample.add (n := 1024) (le_refl _)))))
  -- two processes
  obtain ⟨p₁, m₁, s₁, w₁, step₁, sound₁, still₁, funded₁, loaded₁, spaces₁, held₁, _⟩ :=
    boot_sound.loadModule_returns short (i := 0) rfl (by simp [boot]) funded
  obtain ⟨s₂, w₂, q₂, b₂, m₂, step₂, _, sound₂, current₂, detail₂, funded₂, loaded₂, spaces₂, _⟩ :=
    sound₁.addProcess_returns short (by decide) (by rw [spaces₁]; exact List.mem_cons_self) held₁ funded₁
      arguments before
  obtain ⟨p₃, m₃, s₃, w₃, step₃, sound₃, still₃, funded₃, loaded₃, spaces₃, held₃, _⟩ :=
    sound₂.loadModule_returns short (i := 1) rfl (by rw [loaded₂, loaded₁]; simp [boot]) funded₂
  obtain ⟨s₄, w₄, q₄, b₄, m₄, step₄, absent₄, sound₄, current₄, detail₄, funded₄, _⟩ :=
    sound₃.addProcess_returns short (Nat.ne_of_gt sound₂.accounts.owners)
      (by rw [spaces₃]; exact List.mem_cons_self) held₃ funded₃ arguments before
  have other : q₂ ≠ q₄ := by
    rintro rfl
    exact absent₄ (List.mem_append_right _ (List.mem_singleton_self _))
  -- the first one runs, and the heap grows
  have idle : s₄.kernel.current = 0 := by
    rw [current₄, still₃.current, current₂, still₁.current]
    rfl
  have known₄ : s₄.kernel.detail q₂ = some ((boot M).kernel.owners, b₂) := by
    rw [detail₄, Function.update_of_ne other, still₃.detail, detail₂, Function.update_self]
  obtain ⟨s₅, w₅, r₅, step₅, sound₅, current₅, detail₅, _, funded₅, _⟩ :=
    sound₄.runProcess_returns short idle known₄ funded₄ fun heap _ room => by
      have inside : M.allocator.mappedEnd heap + 4096 * 1024 ≤ 0xC0800000 := room.2.1
      omega
  have asked : M.Room SmallMachine.Ready 52 (255 + (767 + 2)) ≤ M.asks (.pages 767) fun _ => M.nothing :=
    SmallMachine.ample.pages (n := 255) (by decide) fun _ _ _ _ => trivial
  replace funded₅ := funded₅.spend asked
  obtain ⟨p, s₆, w₆, step₆, sound₆, still₆, cr3₆, lower, aligned, upper, mapped⟩ :=
    sound₅.mallocPages_returns short (by decide) funded₅
  have begun : run [] (boot M) = .ok ([], boot M) := rfl
  have ran := run_snoc (run_snoc (run_snoc (run_snoc (run_snoc (run_snoc begun step₁) step₂)
    step₃) step₄) step₅) step₆
  have start : M.layout.heapStart = 0xC0102000 := by decide
  rw [start] at lower
  have page : HeapPage M s₆.kernel.mappedEnd (p / 4096 + 766) := by
    unfold HeapPage
    rw [start]
    omega
  obtain ⟨there, mapper⟩ := mapped 766 (by decide)
  have current₆ : s₆.kernel.current = q₂ := still₆.current.trans current₅
  have member : q₄ ∈ [] ++ [q₂] ++ [q₄] := List.mem_append_right _ (List.mem_singleton_self _)
  obtain ⟨d, live⟩ := Option.isSome_iff_exists.mp (sound₆.has_space (sound₆.live_iff.mpr member))
  refine ⟨M, _, _, s₆, ran, p / 4096 + 766, q₄, d, page, there, live, ?_⟩
  rw [← Option.not_isSome_iff_eq_none]
  intro found
  have runs : q₂ ∈ [] ++ [q₂] ++ [q₄] := by simp
  obtain ⟨_, _, known₆⟩ := sound₆.linked.known runs
  have here := sound₆.current_space (by rw [current₆]; exact sound₆.accounts.detail_ne_zero known₆)
  rw [current₆] at here
  have shared := (sound₆.in_use (Or.inr ⟨q₄, live⟩)).page_mapper sound₆.accounts.paging page
    (by omega) found
  rw [mapper] at shared
  rw [shared] at here
  exact other (sound₆.space_injective here live)

end Outgrown

end System

end Snfos
