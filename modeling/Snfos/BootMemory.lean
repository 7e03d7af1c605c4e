import Snfos.FrameBalance

set_option autoImplicit false

/- Memory that is marked at boot and no module's: it is never handed out, and never written. -/
namespace Snfos.System

open Kernel Command

variable {M : Machine} {s : System M} {w : Estates} {order : List Nat}

section Calls

/-- Every call is about the memory of one owner at most. -/
theorem Sound.leaves_step (sound : Sound s w order) (call : Call) :
    Ensures (Stops M) s (System.step call) fun _ s' => ∃ o, Leaves s.kernel s'.kernel w o := by
  have leaves : ∀ {o : Nat}, LeavesOthers s w o call →
      Ensures (Stops M) s (System.step call) fun _ s' => ∃ o, Leaves s.kernel s'.kernel w o :=
    fun here => here.mono fun _ _ leaves => ⟨_, leaves⟩
  cases call with
  | loadModule i =>
    exact (sound.memory_loadModule i).mono fun _ _ ⟨_, _, _, _, here, _⟩ => ⟨_, here⟩
  | addProcess p arguments before =>
    refine ensures_waiting fun member => ?_
    obtain ⟨o, m, owner, ready, zero, alone⟩ := sound.spaces p member
    exact (sound.memory_addProcess arguments before owner ready zero alone).mono
      fun _ _ ⟨_, here, _⟩ => ⟨o, here⟩
  | runProcess p => exact leaves (sound.leaves_runProcess p)
  | print state => exact leaves (sound.leaves_print state)
  | yield state => exact leaves (sound.leaves_yield state)
  | handleExit state =>
    refine ensures_running fun running => ?_
    obtain ⟨o, b, m, known, _⟩ := sound.current_known running
    exact leaves (sound.leaves_handleExit state known)
  | getPid state => exact leaves (sound.leaves_getPid state)
  | fork state before => exact leaves (sound.leaves_fork state before)
  | malloc size => exact leaves (sound.leaves_malloc size)
  | mallocPages pages => exact leaves (sound.leaves_mallocPages pages)
  | free pointer => exact leaves (sound.leaves_free pointer)

end Calls

section Runs

/-- What was marked at boot is reserved still, and but for the tables of the boot code it holds
what it held then. -/
def Intact (s : System M) : Prop :=
  ∀ f, M.Fixed f → f ≠ M.kernelPageTable → f ≠ M.bootPageDirectory →
    Reserved s.kernel f ∧ s.kernel.ram f = M.ram f

theorem boot_intact : Intact (boot M) := by
  intro f fixed kernel directory
  refine ⟨⟨fixed.1, ?_⟩, rfl⟩
  show M.bootUse f = none ∨ M.bootUse f = some .low ∨ _
  unfold Machine.bootUse
  rw [if_neg kernel, if_neg directory, fixed.2, Option.map_none]
  split
  · exact Or.inr (Or.inl rfl)
  · exact Or.inl rfl

theorem Intact.step {s' : System M} {o : Nat} (intact : Intact s)
    (leaves : Leaves s.kernel s'.kernel w o) : Intact s' := by
  intro f fixed kernel directory
  obtain ⟨reserved, bytes⟩ := intact f fixed kernel directory
  exact ⟨leaves.reserved f reserved, (leaves.bytes f reserved directory).trans bytes⟩

/-- The frame that the running program reaches is one of the heap's. -/
theorem Sound.reached_use (sound : Sound s w order) (running : s.kernel.current ≠ 0) {a : UInt32}
    {write : Bool} {place : Nat × Nat}
    (found : userTranslate s.kernel.ram (s.kernel.cr3 / 4096) a.toNat write = some place) :
    ∃ v, s.kernel.uses place.1 = some (.heap v) := by
  obtain ⟨o, b, m, known, owner, ready, directory, _⟩ := sound.running_task running
  obtain ⟨f, x⟩ := place
  have readable : userTranslate s.kernel.ram (s.kernel.cr3 / 4096) a.toNat false = some (f, x) := by
    cases write with
    | false => exact found
    | true => exact userTranslate_of_write found
  obtain ⟨user, _⟩ := (userTranslate_read a.toNat_lt).mp readable
  rw [directory] at user
  obtain ⟨_, t, j, c, q, count, _, held, within, _, rfl⟩ := sound.accounts.user_page owner ready user
  exact ⟨_, (sound.accounts.page owner held within).2.2.2⟩

theorem ensures_act_intact {event : Event} (represents : ∃ A, Represents s A) (counts : Counts s)
    (intact : Intact s) : Ensures (Stops M) s (act event) fun _ s' =>
      (∃ A, Represents s' A) ∧ Counts s' ∧ Intact s' := by
  have follows : Ensures (Stops M) s (act event) _ := ensures_act_counts represents counts
  obtain ⟨A, _, w, order, sound, _⟩ := represents
  refine ((follows.and (?_ : Ensures (Stops M) s (act event) fun _ s' => Intact s')).excuse
    fun _ => And.left).mono fun _ _ both => ⟨both.1.1, both.1.2, both.2⟩
  cases event with
  | call call =>
    apply ensures_get_bind
    apply ensures_bind (sound.leaves_step call)
    rintro _ s' ⟨o, leaves⟩
    exact ensures_pure _ (intact.step leaves)
  | load a =>
    apply ensures_bind ensures_reach
    rintro place s ⟨rfl, _⟩
    exact ensures_get_bind (ensures_pure _ intact)
  | store a byte =>
    apply ensures_bind ensures_reach
    rintro ⟨f, x⟩ s ⟨rfl, running, found⟩
    obtain ⟨v, use⟩ := sound.reached_use running found
    refine ensures_modify_bind (ensures_pure _ fun f' fixed kernel directory => ?_)
    obtain ⟨reserved, bytes⟩ := intact f' fixed kernel directory
    have other : f' ≠ f := reserved.ne use (by simp)
    exact ⟨reserved, (Function.update_of_ne other ..).trans bytes⟩

/-- No process reaches in user mode what was marked at boot. -/
theorem Sound.fixed_unreached (sound : Sound s w order) (counts : Counts s) {p d i j f : Nat}
    (live : s.kernel.spaceOf p = some d) (user : UserPage s.kernel.ram d i j f) : ¬ M.Fixed f := by
  obtain ⟨o, b, m, known, owner, ready, _, rfl⟩ := sound.space live
  obtain ⟨_, t, j', c, q, count, _, held, within, _, rfl⟩ := sound.accounts.user_page owner ready user
  have use := (sound.accounts.page owner held within).2.2.2
  exact (counts.tally.serves _ _ use).2.2

/-- Memory that is marked at boot and is no module's stays marked, holds no page of the heap and no
page table that was installed, and is no process's. -/
theorem Sound.fixed_kept (sound : Sound s w order) (counts : Counts s) {f : Nat} (fixed : M.Fixed f) :
    s.kernel.frames.used f = true ∧
      (∀ v, HeapPage M s.kernel.mappedEnd v → s.kernel.home v ≠ f) ∧
      isTable (s.kernel.uses f) = false ∧
      ∀ p d i j, s.kernel.spaceOf p = some d → ¬ UserPage s.kernel.ram d i j f := by
  refine ⟨(counts.tally.marked f).mpr (Or.inl fixed), fun v page home => ?_, ?_,
    fun p d i j live user => sound.fixed_unreached counts live user fixed⟩
  · subst home
    exact (counts.tally.serves _ _ (sound.accounts.paging.homes v page)).2.2 fixed
  · rw [Bool.eq_false_iff]
    intro table
    obtain ⟨d, i, use⟩ := isTable_iff.mp table
    exact counts.tally.serves _ _ use fixed

/-- What any run keeps of the frames. -/
theorem play_intact (events : List Event) :
    Ensures (Stops M) (boot M) (play events) fun _ s =>
      (∃ w order, Sound s w order) ∧ Counts s ∧ Intact s := by
  have start : (∃ A, Represents (boot M) A) ∧ Counts (boot M) ∧ Intact (boot M) :=
    ⟨⟨_, boot_represents⟩, boot_counts, boot_intact⟩
  refine (ensures_sequence (fun s i holds => ensures_act_intact holds.1 holds.2.1 holds.2.2) start
    events).mono ?_
  rintro _ s ⟨⟨A, _, w, order, sound, _⟩, counts, intact⟩
  exact ⟨⟨w, order, sound⟩, counts, intact⟩

end Runs

end Snfos.System
