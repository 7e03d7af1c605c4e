import Snfos.Refinement
import Snfos.SmallMachine

set_option autoImplicit false

/- The arguments of a new program, as it finds them through its own page directory. Of all
of them `add_process` copies the first one's text, without the NUL behind it, into a page that
may hold anything. -/
namespace Snfos

open ByteMemory

/-- `argv`: strings without their NULs, which fit one page with the pointers to them. -/
structure ArgumentVector where
  first : List UInt8
  others : List (List UInt8)
  plain : ∀ text ∈ first :: others, ∀ c ∈ text, c ≠ 0
  fits : 4 * (others.length + 1) + (first.length + 1) +
    (others.map fun text => text.length + 1).sum ≤ 4096

namespace ArgumentVector

def strings (argv : ArgumentVector) : List (List UInt8) := argv.first :: argv.others

theorem first_short (argv : ArgumentVector) : 4 + argv.first.length < 4096 := by
  have fits := argv.fits
  omega

/-- What `add_process` is called with. -/
def arguments (argv : ArgumentVector) (envc envp : Nat) : Kernel.Arguments where
  argc := argv.strings.length
  argv0 := argv.first
  envc := envc
  envp := envp
  short := by
    have short := argv.first_short
    omega

/-- The addresses a program made by `load_module` and `add_process` has: its code's, those of the
page of the arguments, and its stack's. -/
def UserAddress (a : Nat) : Prop := a < 0x401000 ∨ 0xBFFFF000 ≤ a ∧ a < 0xC0000000

/-- Behind the first pointer come the first text and the old bytes of the page, where the pointers
to the other strings would be: all of them happen to be addresses of the program. -/
def Accidental (argv : ArgumentVector) (old : Memory) : Prop :=
  ∀ n, n < argv.others.length →
    UserAddress (load32 (Kernel.withText argv.first old) (4 + 4 * n))

/-- No such accident befalls a name of four letters or more: its fourth byte would be 0xBF, as in
the addresses of the stack. -/
theorem Accidental.text {argv : ArgumentVector} {old : Memory} (accidental : argv.Accidental old)
    (more : argv.others ≠ []) (long : 4 ≤ argv.first.length) : argv.first[3]? = some 0xBF := by
  have word := accidental 0 (List.length_pos_iff.mpr more)
  have there : Kernel.withText argv.first old 7 = argv.first[3] :=
    (store32_ne _ _ _ _ (by omega)).trans
      (storeBytes_at argv.first old 4 3 _ (List.getElem?_eq_getElem long))
  have nonzero := argv.plain argv.first List.mem_cons_self _ (List.getElem_mem long)
  have positive : (argv.first[3]).toNat ≠ 0 := fun zero => nonzero (UInt8.toNat_inj.mp zero)
  rw [List.getElem?_eq_getElem long, Option.some.injEq, ← UInt8.toNat_inj]
  unfold UserAddress load32 at word
  rw [show 4 + 4 * 0 + 3 = 7 from rfl, there] at word
  have low₀ := (Kernel.withText argv.first old (4 + 4 * 0)).toNat_lt
  have low₁ := (Kernel.withText argv.first old (4 + 4 * 0 + 1)).toNat_lt
  have low₂ := (Kernel.withText argv.first old (4 + 4 * 0 + 2)).toNat_lt
  show (argv.first[3]).toNat = 0xBF
  omega

end ArgumentVector

namespace Kernel

variable {M : Machine}

section Reading

variable (ram : Nat → Memory) (d a : Nat)

/-- User mode reads `value` at address `a` under directory `d`. -/
def UserByte (value : UInt8) : Prop :=
  ∃ f, UserPage ram d (a / 2 ^ 22) (a / 4096 % 1024) f ∧ ram f (a % 4096) = value

def UserPointer (pointer : Nat) : Prop :=
  ∃ f, UserPage ram d (a / 2 ^ 22) (a / 4096 % 1024) f ∧ a % 4096 + 4 ≤ 4096 ∧
    load32 (ram f) (a % 4096) = pointer

/-- A string with the NUL that ends it. -/
def UserString (text : List UInt8) : Prop :=
  ∀ i c, (text ++ [0])[i]? = some c → UserByte ram d (a + i) c

/-- From `a` on there are pointers to copies of the strings. -/
def UserStrings (strings : List (List UInt8)) : Prop :=
  ∀ n text, strings[n]? = some text →
    ∃ pointer, UserPointer ram d (a + 4 * n) pointer ∧ UserString ram d pointer text

theorem userStrings_cons (text : List UInt8) (strings : List (List UInt8)) :
    UserStrings ram d a (text :: strings) ↔
      (∃ pointer, UserPointer ram d a pointer ∧ UserString ram d pointer text) ∧
        UserStrings ram d (a + 4) strings := by
  constructor
  · intro all
    refine ⟨all 0 text rfl, fun n text' here => ?_⟩
    have next := all (n + 1) text' here
    rwa [show a + 4 * (n + 1) = a + 4 + 4 * n by omega] at next
  · rintro ⟨first, others⟩ n text' here
    cases n with
    | zero =>
      cases here
      exact first
    | succ n =>
      rw [show a + 4 * (n + 1) = a + 4 + 4 * n by omega]
      exact others n text' here

end Reading

/-- What the program `process` runs is promised: their number in `eax`, and in `ebx` the
address of pointers to its arguments. -/
def ArgumentsArrive (k : Kernel M) (process : Nat) (argv : ArgumentVector) : Prop :=
  ∃ o b d, k.detail process = some (o, b) ∧ k.spaceOf process = some d ∧
    b.processState.cpu.eax = argv.strings.length ∧ b.processState.cpu.ebx = 0x400000 ∧
      UserStrings k.ram d 0x400000 argv.strings

/-- The page at `page` with other contents. -/
def withPage (k : Kernel M) (page : Nat) (old : Memory) : Kernel M :=
  edited k (k.home (page / 4096)) old

/-- `add_process` up to the page for the arguments. -/
def beginArguments (processMemory : Nat) (before : Process) : Action M (Nat × Nat) := do
  let owner ← ownerOf processMemory
  let process ← linkProcess processMemory owner before
  let page ← argumentsPage processMemory owner
  pure (process, page)

/-- The rest of `add_process`. -/
def layArguments (process page : Nat) (arguments : Arguments) : Action M Nat := do
  editFrame page fun bytes _ => withText arguments.argv0 bytes
  setProcess process 0 (withArguments arguments)
  pure process

theorem addProcess_eq (processMemory : Nat) (arguments : Arguments) (before : Process) :
    (addProcess processMemory arguments before : Action M Nat) =
      beginArguments processMemory before >>= fun made => layArguments made.1 made.2 arguments := by
  unfold addProcess beginArguments layArguments
  simp only [addArguments_eq, bind_assoc, pure_bind]
  rfl

section Text

variable (text : List UInt8) (bytes : Memory)

theorem withText_pointer : load32 (withText text bytes) 0 = 0x400004 :=
  load32_store32_of_lt _ _ _ (by decide)

theorem withText_text (i : Nat) (c : UInt8) (here : text[i]? = some c) :
    withText text bytes (4 + i) = c :=
  (store32_ne _ _ _ _ (by omega)).trans (storeBytes_at text bytes 4 i c here)

theorem withText_behind : withText text bytes (4 + text.length) = bytes (4 + text.length) :=
  (store32_ne _ _ _ _ (by omega)).trans (storeBytes_ne text bytes 4 _ (by omega))

end Text

section Reached

variable {ram : Nat → Memory} {d f x : Nat}

theorem UserPage.unique {i j f' : Nat} (user : UserPage ram d i j f) (user' : UserPage ram d i j f') :
    f = f' := user.frame.symm.trans user'.frame

/-- Addresses in the page of the arguments. -/
theorem userByte_iff (user : UserPage ram d 1 0 f) (inside : x < 4096) (value : UInt8) :
    UserByte ram d (0x400000 + x) value ↔ ram f x = value := by
  have slot : (0x400000 + x) / 2 ^ 22 = 1 := by omega
  have index : (0x400000 + x) / 4096 % 1024 = 0 := by omega
  have offset : (0x400000 + x) % 4096 = x := by omega
  unfold UserByte
  rw [slot, index, offset]
  constructor
  · rintro ⟨f', user', here⟩
    rwa [user.unique user']
  · exact fun here => ⟨f, user, here⟩

theorem userPointer_iff (user : UserPage ram d 1 0 f) (inside : x + 4 ≤ 4096) (pointer : Nat) :
    UserPointer ram d (0x400000 + x) pointer ↔ load32 (ram f) x = pointer := by
  have slot : (0x400000 + x) / 2 ^ 22 = 1 := by omega
  have index : (0x400000 + x) / 4096 % 1024 = 0 := by omega
  have offset : (0x400000 + x) % 4096 = x := by omega
  unfold UserPointer
  rw [slot, index, offset]
  constructor
  · rintro ⟨f', user', _, here⟩
    rwa [user.unique user']
  · exact fun here => ⟨f, user, inside, here⟩

/-- The first argument is there where the page held a NUL behind its text. -/
theorem first_iff (user : UserPage ram d 1 0 f) {text : List UInt8} {old : Memory}
    (short : 4 + text.length < 4096)
    (laid : ∀ offset, offset < 4096 → ram f offset = withText text old offset) :
    (∃ pointer, UserPointer ram d 0x400000 pointer ∧ UserString ram d pointer text) ↔
      old (4 + text.length) = 0 := by
  have word : load32 (ram f) 0 = 0x400004 := by
    rw [load32_congr fun b _ small => laid b (by omega), withText_pointer]
  have pointer : ∀ p, UserPointer ram d 0x400000 p ↔ 0x400004 = p := by
    intro p
    rw [← word]
    exact userPointer_iff (x := 0) user (by decide) p
  have byte : ∀ i c, i ≤ text.length →
      (UserByte ram d (0x400004 + i) c ↔ withText text old (4 + i) = c) := by
    intro i c inside
    rw [← laid (4 + i) (by omega), ← userByte_iff user (by omega), ← Nat.add_assoc]
  constructor
  · rintro ⟨p, word, string⟩
    cases (pointer p).mp word
    have last := string text.length 0 (List.getElem?_concat_length ..)
    rw [byte _ _ (Nat.le_refl _), withText_behind] at last
    exact last
  · intro behind
    refine ⟨0x400004, (pointer _).mpr rfl, fun i c here => ?_⟩
    by_cases inside : i < text.length
    · rw [List.getElem?_append_left inside] at here
      rw [byte i c (Nat.le_of_lt inside)]
      exact withText_text text old i c here
    · have bound : i < (text ++ [0]).length := (List.getElem?_eq_some_iff.mp here).1
      rw [List.length_append, List.length_singleton] at bound
      have last : i = text.length := by omega
      subst last
      rw [List.getElem?_concat_length] at here
      cases here
      rw [byte _ _ (Nat.le_refl _), withText_behind]
      exact behind

/-- Where the other strings are reached, what stands for the pointers to them are addresses. -/
theorem accidental_of_strings (user : UserPage ram d 1 0 f) {argv : ArgumentVector} {old : Memory}
    (laid : ∀ offset, offset < 4096 → ram f offset = withText argv.first old offset)
    (strings : UserStrings ram d 0x400000 argv.strings)
    (address : ∀ a value, a < 2 ^ 32 → UserByte ram d a value → ArgumentVector.UserAddress a) :
    argv.Accidental old := by
  intro n inside
  obtain ⟨pointer, reads, string⟩ := strings (n + 1) _ (List.getElem?_eq_getElem inside)
  have fits := argv.fits
  rw [show 0x400000 + 4 * (n + 1) = 0x400000 + (4 + 4 * n) by omega,
    userPointer_iff user (by omega)] at reads
  have word : load32 (withText argv.first old) (4 + 4 * n) = pointer := by
    rw [← reads]
    exact load32_congr fun b _ _ => (laid b (by omega)).symm
  rw [word]
  have bound : pointer < 2 ^ 32 := by
    rw [← reads]
    exact load32_lt _ _
  obtain ⟨c, first⟩ : ∃ c, (argv.others[n] ++ [0])[0]? = some c := by
    cases argv.others[n] with
    | nil => exact ⟨0, rfl⟩
    | cons c rest => exact ⟨c, rfl⟩
  exact address pointer c bound (string 0 c first)

end Reached

section Adding

variable {covered enough : Prop} {spare : M.Budget} {k : Kernel M} {w : Estates} {o p q page : Nat}
  {order : List Nat} {m : ProcessMemory} {before : Process}

/-- The page for the arguments is open to the program it is made for. -/
theorem Accounts.arguments_open (accounts : Accounts covered enough spare k w) (owner : o ≠ 0)
    (ready : (w o).Ready p m) (held : (w o).block (.page 1 0) = some (page, .pages 1)) :
    UserPage k.ram ((w o).frame .directory 0) 1 0 ((w o).frame (.page 1 0) 0) := by
  have directory := accounts.entry owner ready.laid.directory (Nat.succ_pos 0) (i := 1) (by decide)
    fun _ => Or.inr (Or.inl (by decide))
  rcases ready.laid.slotReady 1 (by decide) with ⟨_, vacant, _⟩ | ⟨_, ⟨t, table⟩, leads⟩
  · rw [vacant (.page 1 0) rfl] at held
    cases held
  have entry := accounts.entry owner table.pageTable (Nat.succ_pos 0) (i := 0) (by decide) nofun
  rcases table.pages 0 (by decide) with ⟨_, absent, _⟩ | ⟨j', c, q, place, _, entered⟩
  · rw [absent] at held
    cases held
  have index := place.index
  obtain rfl : j' = 0 := by omega
  obtain rfl : c = 0 := by omega
  rw [← directory] at leads
  rw [← entry] at entered
  exact userPage_of_leads (by decide) (by decide) leads entered

/-- The new process with its page for the arguments, whatever that holds. -/
theorem Accounts.ensures_beginArguments (accounts : Accounts covered enough (M.addAsks spare) k w)
    (owner : o ≠ 0) (drawn : o < k.owners) (ready : (w o).Ready p m) (zero : m.pageTables 1 = 0)
    (new : (w o).block .process = none) (linked : Linked k order) :
    Command.Ensures (Excused M covered enough) k (beginArguments p before) fun made k' =>
      ∃ w' m', Accounts covered enough spare k' w' ∧ (w' o).Ready p m' ∧
        (w' o).block (.page 1 0) = some (made.2, .pages 1) ∧
        (Elsewhere (w o) (w' o) m m' ∧ ∀ j, (w' o).Has 1 j ↔ j = 0) ∧
        k'.detail made.1 = some (o, linkedProcess p k.pidInc before) := by
  unfold beginArguments
  apply Command.ensures_bind (accounts.ensures_ownerOf owner ready.laid.memory)
  rintro o k ⟨rfl, rfl⟩
  apply Command.ensures_bind (accounts.ensures_linkProcess owner drawn new linked)
  rintro q k₁ ⟨⟨w₁, accounts₁, beside₁⟩, kept₁, absent, linked₁, pid₁, detail₁⟩
  refine Command.ensures_bind (accounts₁.ensures_argumentsPage owner
    (by rw [kept₁.owners]; exact drawn) (ready.beside beside₁) zero) ?_
  rintro page k₂ ⟨steady₂, E, m', accounts₂, ready₂, process₂, elsewhere₂, has₂, held⟩
  have same : k₂.processOf = k₁.processOf := accounts₁.processOf_same accounts₂ fun o' _ => by
    by_cases here : o' = o
    · rw [here, Function.update_self, process₂]
    · rw [Function.update_of_ne here]
  refine Command.ensures_pure _ ⟨_, m', accounts₂, ?_, ?_, ?_, ?_⟩
  · rw [Function.update_self]
    exact ready₂
  · rw [Function.update_self]
    exact held
  · rw [Function.update_self]
    exact ⟨(elsewhere_drop (beside₁ o)).trans elsewhere₂, has₂⟩
  · unfold detail
    rw [same]
    show k₁.detail q = _
    rw [detail₁, Function.update_self]

theorem ensures_visit_same {offset : Nat} :
    Command.Ensures (fun _ => True) k (visit q offset) fun _ k' => k' = k := by
  unfold visit
  apply Command.ensures_get_bind
  cases k.blocks q with
  | none => exact Command.ensures_throw _ trivial
  | some block =>
    refine Command.ensures_bind (Q := fun _ k' => k' = k)
      (ensures_resolve (fun _ _ => rfl) fun _ => trivial) ?_
    rintro _ _ rfl
    exact Command.ensures_pure _ rfl

/-- A structure is no part of the frames' bytes. -/
theorem ensures_setProcess_ram {offset : Nat} (change : Process → Process) :
    Command.Ensures (fun _ => True) k (setProcess q offset change) fun _ k' => k'.ram = k.ram := by
  unfold setProcess processAt
  refine Command.ensures_bind (Q := fun _ k' => k' = k) ?_ ?_
  · apply Command.ensures_bind ensures_visit_same
    rintro ⟨body, role, owner⟩ _ rfl
    cases body with
    | process pr => exact Command.ensures_pure _ rfl
    | _ => exact Command.ensures_throw _ trivial
  · rintro pr _ rfl
    exact Command.ensures_modify _ rfl

/-- The text goes into the page, and the registers into the structure. -/
theorem Accounts.ensures_layArguments {b : Process} (accounts : Accounts covered enough spare k w)
    (owner : o ≠ 0) (ready : (w o).Ready p m)
    (held : (w o).block (.page 1 0) = some (page, .pages 1)) (known : k.detail q = some (o, b))
    (arguments : Arguments) :
    Command.Ensures (Excused M covered enough) k (layArguments q page arguments) fun q' k' =>
      q' = q ∧ (∃ w', Accounts covered enough spare k' w' ∧ (w' o).Ready p m ∧
        (w' o).block (.page 1 0) = some (page, .pages 1) ∧ (w' o).frame = (w o).frame ∧
        Elsewhere (w o) (w' o) m m ∧ ∀ j, (w' o).Has 1 j ↔ (w o).Has 1 j) ∧
        k'.detail q = some (o, withArguments arguments b) ∧
        k'.ram = Function.update k.ram ((w o).frame (.page 1 0) 0)
          (withText arguments.argv0 (k.ram ((w o).frame (.page 1 0) 0))) := by
  have write := accounts.ensures_editFrame (fun bytes _ => withText arguments.argv0 bytes) 0 owner
    held (Nat.succ_pos 0) (by decide) (alike_argument _ _) nofun
  rw [Nat.mul_zero, Nat.add_zero] at write
  have bytes : Command.Ensures (fun _ => True) k
      (editFrame page fun bytes _ => withText arguments.argv0 bytes) fun _ k' =>
        k' = Kernel.edited k ((w o).frame (.page 1 0) 0)
          (withText arguments.argv0 (k.ram ((w o).frame (.page 1 0) 0))) := by
    refine Snfos.Kernel.ensures_editFrame ?_ fun _ => trivial
    intro f offset found
    cases accounts.place_of owner held (Nat.succ_pos 0) (by decide : 0 < 4096) rfl found
    rfl
  unfold layArguments
  apply Command.ensures_bind ((write.and bytes).excuse fun _ => And.left)
  rintro _ k₁ ⟨⟨accounts₁, steady₁⟩, rfl⟩
  have detail₁ : (Kernel.edited k ((w o).frame (.page 1 0) 0)
      (withText arguments.argv0 (k.ram ((w o).frame (.page 1 0) 0)))).detail q = some (o, b) := known
  have change := accounts₁.ensures_setDetail (withArguments arguments) detail₁ (by decide : 0 < 68)
    fun _ => ⟨rfl, rfl, rfl⟩
  apply Command.ensures_bind ((change.and (ensures_setProcess_ram _)).excuse fun _ => And.left)
  rintro _ k₂ ⟨⟨⟨w₂, accounts₂, beside₂⟩, _, _, _, detail₂⟩, ram₂⟩
  refine Command.ensures_pure _ ⟨rfl, ⟨w₂, accounts₂, ?_, ?_, ?_, ?_, fun j => ?_⟩, ?_, ram₂⟩
  · exact Estate.Ready.beside (by rw [Function.update_self]; exact ready_edit ready) beside₂
  · rw [beside₂.block (by simp), Function.update_self]
    exact held
  · rw [beside₂.frame, Function.update_self]
    rfl
  · have dropped := beside₂ o
    rw [Function.update_self] at dropped
    exact elsewhere_edit.trans (elsewhere_drop dropped)
  · unfold Estate.Has
    rw [beside₂.block (by simp), Function.update_self]
    rfl
  · rw [detail₂, Function.update_self]

/-- Where the strings lead, the new program has its addresses: those it was loaded with, and the
page of the arguments. -/
theorem Accounts.userByte_address {spare' : M.Budget} {k' : Kernel M} {w' : Estates} {m' : ProcessMemory}
    (accounts : Accounts covered enough spare k w) (accounts' : Accounts covered enough spare' k' w')
    (owner : o ≠ 0) (ready : (w o).Ready p m) (ready' : (w' o).Ready p m')
    (elsewhere : Elsewhere (w o) (w' o) m m') (has : ∀ j, (w' o).Has 1 j ↔ j = 0)
    (loaded : ∀ a, (k.spaceMemory p a).isSome = true → ArgumentVector.UserAddress a.toNat)
    {a : Nat} (bound : a < 2 ^ 32) {value : UInt8}
    (reads : UserByte k'.ram ((w' o).frame .directory 0) a value) : ArgumentVector.UserAddress a := by
  obtain ⟨f, user, _⟩ := reads
  have opens := (accounts'.user_opens owner ready').mp user
  by_cases slot : a / 2 ^ 22 = 1
  · have listed := ((accounts'.opens_iff owner ready').mp ⟨f, opens⟩).2.2
    rw [slot, has] at listed
    exact Or.inl (by omega)
  · have small : (UInt32.ofNat a).toNat = a := UInt32.toNat_ofNat_of_lt' bound
    have before := (accounts.opens_iff owner ready).mp ⟨f, opens.elsewhere elsewhere.symm slot⟩
    rw [← small]
    apply loaded
    rw [accounts.spaceMemory_isSome owner ready, small]
    exact ⟨before.1, before.2.2⟩

end Adding

end Kernel

namespace System

open Kernel

variable {M : Machine}

/-- The spaces that wait for a process hold modules as they were loaded. -/
def Imaged (M : Machine) (A : Tasks) : Prop :=
  ∀ p memory, A.space p = some memory → ∃ module, LoadedMemory module M.ram memory

theorem step_imaged {A B : Tasks} {event : Event} {outcome : Outcome}
    (step : Tasks.Step M A event outcome B) (imaged : Imaged M A) : Imaged M B := by
  cases step with
  | @loadModule i p module memory _ _ _ image =>
    intro q memory' held
    by_cases here : q = p
    · rw [here] at held
      simp only [Function.update_self, Option.some.injEq] at held
      exact ⟨module, held ▸ image⟩
    · simp only [Function.update_of_ne here] at held
      exact imaged q memory' held
  | @addProcess p q memory arguments before old held _ =>
    intro q memory' held
    by_cases here : q = p
    · rw [here] at held
      simp [Tasks.join] at held
    · simp only [Tasks.join, Function.update_of_ne here] at held
      exact imaged q memory' held
  | _ => exact imaged

/-- A program that waits for its process has its code and its stack, and nothing where the
arguments go. -/
theorem loaded_address {s : System M} {A : Tasks} {memory : Nat} (represents : Represents s A)
    (imaged : Imaged M A) (member : memory ∈ s.spaces) (a : UInt32)
    (mapped : (s.kernel.spaceMemory memory a).isSome = true) :
    ArgumentVector.UserAddress a.toNat := by
  obtain ⟨_, w, order, sound, rfl⟩ := represents
  obtain ⟨o, m, owner, ready, zero, _⟩ := sound.spaces memory member
  obtain ⟨module, image⟩ := imaged memory _ (if_pos member)
  have few : 4096 * module.numCodePages ≤ 0x400000 := by
    by_contra more
    have small : (UInt32.ofNat 0x400000).toNat = 0x400000 := rfl
    have reached := (image.mapped (UInt32.ofNat 0x400000)).mpr (Or.inl (by rw [small]; omega))
    rw [sound.accounts.spaceMemory_isSome owner ready, small] at reached
    obtain ⟨_, q, t, held, _⟩ := reached
    have vacant := sound.accounts.vacant owner ready.laid (by decide) zero
    exact absurd ((vacant (.table 1) rfl).symm.trans held) nofun
  rcases (image.mapped a).mp mapped with code | stack
  · exact Or.inl (by omega)
  · exact Or.inr stack

/-- After any run the tasks have such spaces. -/
theorem represents_imaged (events : List Event) :
    Command.Ensures (Stops M) (boot M) (play events) fun _ s => ∃ A w order,
      Represents s A ∧ Imaged M A ∧ Sound s w order := by
  apply (simulates.run boot_represents events).mono
  rintro outcomes s ⟨A, run, represents⟩
  obtain ⟨_, w, order, sound, _⟩ := id represents
  have begun : Imaged M Tasks.start := fun _ _ none => by cases none
  exact ⟨A, w, order, represents, run.keeps (fun _ _ _ _ step => step_imaged step) begun, sound⟩

/-- `add_process` on a loaded module, with a page for the arguments that holds `old`. -/
theorem Sound.ensures_arguments {covered enough : Prop} {spare : M.Budget} {s : System M} {w : Estates}
    {order : List Nat} {memory : Nat} (sound : Sound s w order) (member : memory ∈ s.spaces)
    (loaded : ∀ a, (s.kernel.spaceMemory memory a).isSome = true → ArgumentVector.UserAddress a.toNat)
    (accounts : Accounts covered enough (M.addAsks spare) s.kernel w) (argv : ArgumentVector)
    (envc envp : Nat) (before : Process) :
    Command.Ensures (Excused M covered enough) s.kernel (beginArguments memory before) fun made k =>
      ∀ old, Command.Ensures (Excused M covered enough) (k.withPage made.2 old)
        (layArguments made.1 made.2 (argv.arguments envc envp)) fun q k' => q = made.1 ∧
          (argv.others = [] → (ArgumentsArrive k' q argv ↔ old (4 + argv.first.length) = 0)) ∧
          (ArgumentsArrive k' q argv →
            old (4 + argv.first.length) = 0 ∧ argv.Accidental old) := by
  obtain ⟨o, m, owner, ready, zero, alone⟩ := sound.spaces memory member
  have drawn : o < s.kernel.owners :=
    (sound.accounts.blocks _ _ (sound.accounts.live owner ready.laid.memory)).2.2.1
  apply (accounts.ensures_beginArguments owner drawn ready zero
    (sound.accounts.no_process owner alone) sound.linked).mono
  rintro ⟨q, page⟩ k ⟨w₁, m', accounts₁, ready₁, held₁, ⟨elsewhere₁, has₁⟩, detail₁⟩ old
  dsimp only at held₁ detail₁ ⊢
  have home : k.home (page / 4096) = (w₁ o).frame (.page 1 0) 0 :=
    (accounts₁.page owner held₁ (Nat.succ_pos 0)).2.2.1
  have alike : Alike (fun _ => old) (fun _ => old) := fun _ _ _ _ _ => rfl
  obtain ⟨accounts₂, _⟩ := accounts₁.edited owner held₁ (Nat.succ_pos 0) alike nofun
  have state : k.withPage page old = edited k ((w₁ o).frame (.page 1 0) 0) old := by
    unfold withPage
    rw [home]
  rw [state]
  have own : Function.update w₁ o ((w₁ o).edit (.page 1 0) 0 fun _ => old) o =
      (w₁ o).edit (.page 1 0) 0 fun _ => old := Function.update_self ..
  have ready₂ : (Function.update w₁ o ((w₁ o).edit (.page 1 0) 0 fun _ => old) o).Ready memory m' := by
    rw [own]
    exact ready_edit ready₁
  have held₂ : (Function.update w₁ o ((w₁ o).edit (.page 1 0) 0 fun _ => old) o).block (.page 1 0) =
      some (page, .pages 1) := by
    rw [own]
    exact held₁
  apply (accounts₂.ensures_layArguments owner ready₂ held₂ detail₁ (argv.arguments envc envp)).mono
  rintro q' k' ⟨rfl, ⟨w₃, accounts₃, ready₃, held₃, frame₃, elsewhere₃, has₃⟩, detail₃, ram₃⟩
  have frames : (w₃ o).frame = (w₁ o).frame := by
    rw [frame₃, Function.update_self]
    rfl
  have laid : ∀ offset, offset < 4096 →
      k'.ram ((w₁ o).frame (.page 1 0) 0) offset = withText argv.first old offset := by
    intro offset _
    have before : (edited k ((w₁ o).frame (.page 1 0) 0) old).ram =
        Function.update k.ram ((w₁ o).frame (.page 1 0) 0) old := rfl
    rw [ram₃, Function.update_self, Estate.edit_frame, before, Function.update_self,
      Function.update_self]
    rfl
  rw [own] at elsewhere₃
  have elsewhere := elsewhere₁.trans (elsewhere_edit.trans elsewhere₃)
  have has : ∀ j, (w₃ o).Has 1 j ↔ j = 0 := by
    intro j
    rw [has₃, own, ← has₁]
    rfl
  have address : ∀ a value, a < 2 ^ 32 →
      UserByte k'.ram ((w₁ o).frame .directory 0) a value → ArgumentVector.UserAddress a := by
    intro a value
    rw [← frames]
    exact fun bound => accounts.userByte_address accounts₃ owner ready ready₃ elsewhere has loaded bound
  have space := accounts₃.spaceOf_ready detail₃ ready₃
  have user := accounts₃.arguments_open owner ready₃ held₃
  rw [frames] at space user
  have first := first_iff user argv.first_short laid
  have arrive_iff : ArgumentsArrive k' q' argv ↔
      UserStrings k'.ram ((w₁ o).frame .directory 0) 0x400000 argv.strings := by
    constructor
    · rintro ⟨_, _, _, _, live, _, _, strings⟩
      rw [space] at live
      cases live
      exact strings
    · exact fun strings => ⟨o, _, _, detail₃, space, rfl, rfl, strings⟩
  rw [arrive_iff]
  refine ⟨rfl, fun alone => ?_, fun arrive => ⟨?_, accidental_of_strings user laid arrive address⟩⟩
  · rw [← first]
    refine (userStrings_cons _ _ _ _ _).trans (and_iff_left ?_)
    rw [alone]
    exact fun _ _ none => by cases none
  · exact first.mp ((userStrings_cons _ _ _ _ _).mp arrive).1

/-- After any calls, loads and stores, a program's one argument arrives through a page that held
`old` if and only if `old` has a NUL just where the text ends. Of more arguments the first is all
that is written: they arrive only by accident, and none does for a first text of four letters. -/
theorem run_arguments (events : List Event) (memory : Nat) (argv : ArgumentVector) (envc envp : Nat)
    (before : Process) :
    Command.Ensures (Stops M) (boot M) (play events) fun _ s => memory ∈ s.spaces →
      Command.Ensures (Excused M False False) s.kernel (beginArguments memory before) fun made k =>
        ∀ old, Command.Ensures (Excused M False False) (k.withPage made.2 old)
          (layArguments made.1 made.2 (argv.arguments envc envp)) fun q k' => q = made.1 ∧
            (argv.others = [] → (ArgumentsArrive k' q argv ↔ old (4 + argv.first.length) = 0)) ∧
            (ArgumentsArrive k' q argv →
              old (4 + argv.first.length) = 0 ∧ argv.Accidental old) ∧
            (argv.others ≠ [] → 4 ≤ argv.first.length → argv.first[3]? ≠ some 0xBF →
              ¬ ArgumentsArrive k' q argv) := by
  apply (represents_imaged events).mono
  rintro outcomes s ⟨A, w, order, represents, imaged, sound⟩ member
  apply (sound.ensures_arguments member (loaded_address represents imaged member)
    (sound.accounts.unbounded (M.addAsks M.nothing)) argv envc envp before).mono
  intro made k lays old
  apply (lays old).mono
  rintro q k' ⟨same, one, first⟩
  exact ⟨same, one, first, fun more long other arrive => other ((first arrive).2.text more long)⟩

/-- One call. -/
theorem play_call {s s' : System M} {call : Call} {r : Option Resumed}
    (called : step call s = .ok (r, s')) :
    play [.call call] s = .ok ([.returned (shown s.kernel call) r], s') := by
  show ((step call s).bind fun turn =>
    .ok (Outcome.returned (shown s.kernel call) turn.1, turn.2)).bind
      (fun first => .ok ([first.1], first.2)) = _
  rw [called]
  rfl

/-- `kernel_main`'s one argument, `Process1`. -/
def processOne : ArgumentVector :=
  ⟨[80, 114, 111, 99, 101, 115, 115, 49], [], by simp, by simp⟩

/-- On a page that is full of ones `Process1` has no end. -/
theorem processOne_garbled : ∃ (s : System (smallMachine 0xC0400000 (by decide))) (memory : Nat)
    (made : Nat × Nat) (k : Kernel (smallMachine 0xC0400000 (by decide))) (q : Nat)
    (k' : Kernel (smallMachine 0xC0400000 (by decide))),
    run [.loadModule 0] (boot (smallMachine 0xC0400000 (by decide))) = .ok ([none], s) ∧
      memory ∈ s.spaces ∧
      beginArguments memory ⟨⟨⟨0, 0, 0, 0, 0, 0, 0⟩, ⟨0, 0, 0, 0, 0⟩⟩, 0, false, 0, 0, 0⟩ s.kernel =
        .ok (made, k) ∧
      layArguments made.1 made.2 (processOne.arguments 0 0) (k.withPage made.2 fun _ => 0xFF) =
        .ok (q, k') ∧ ¬ArgumentsArrive k' q processOne := by
  have funded : Funded ((smallMachine 0xC0400000 (by decide)).Room SmallMachine.Ready 52 50)
      (boot (smallMachine 0xC0400000 (by decide))).kernel :=
    SmallMachine.boot_funded 50 (by decide) (by decide)
  replace funded := funded.spend (SmallMachine.ample.load SmallMachine.firstModule (n := 12)
    (SmallMachine.ample.add (n := 0) (le_refl _)))
  obtain ⟨memory, m, s, w, step, sound, _, funded, _, spaces, _⟩ :=
    boot_sound.loadModule_returns SmallMachine.short (i := 0) rfl (by simp [boot]) funded
  have member : memory ∈ s.spaces := by
    rw [spaces]
    exact List.mem_cons_self
  obtain ⟨A, _, _, represents, imaged, _⟩ :=
    (represents_imaged [.call (.loadModule 0)]).result (play_call step)
  obtain ⟨made, k, begun, lays⟩ := (sound.ensures_arguments member
    (loaded_address represents imaged member) (sound.accounts.fund funded) processOne 0 0
    ⟨⟨⟨0, 0, 0, 0, 0, 0, 0⟩, ⟨0, 0, 0, 0, 0⟩⟩, 0, false, 0, 0, 0⟩).returns
      (not_excused SmallMachine.short)
  obtain ⟨q, k', laid, _, _, arrive⟩ := (lays fun _ => 0xFF).returns (not_excused SmallMachine.short)
  refine ⟨s, memory, made, k, q, k', @run_snoc _ [] _ _ _ _ _ _ rfl step, member, begun, laid, ?_⟩
  exact fun arrives => absurd (arrive arrives).1 (by decide)

end System

end Snfos
