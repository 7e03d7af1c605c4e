import Snfos.Isolation
import Snfos.Scheduling
import Snfos.UserPrint

set_option autoImplicit false

/- `int $0x80` as the running process sees it: the dispatch through `sys_call_table`, what
the terminal shows, and the registers the process gets back. -/
namespace Snfos

open ByteMemory

/-- What the processor finds at an address: nothing, a byte that only the kernel may touch,
or one that user mode may touch too. -/
inductive Cell where
  | absent
  | kernel (byte : UInt8)
  | user (byte : UInt8)
deriving DecidableEq

/-- The byte there, for the kernel. -/
def Cell.byte : Cell → Option UInt8
  | .absent => none
  | .kernel byte => some byte
  | .user byte => some byte

/-- Bit 2 opens an entry to user mode. Both entries must have it. -/
def cellAt (ram : Nat → Memory) (directory address : Nat) : Cell :=
  match translate ram directory address with
  | none => .absent
  | some (frame, offset) =>
      let pde := entry ram directory (address / 2 ^ 22)
      let pte := entry ram (pde / 4096) (address / 4096 % 1024)
      if pde / 4 % 2 = 1 ∧ pte / 4 % 2 = 1 then .user (ram frame offset)
      else .kernel (ram frame offset)

/-- The cell that the two entries of an address make. -/
theorem cellAt_entries {ram : Nat → Memory} {directory address pde pte : Nat}
    (first : entry ram directory (address / 2 ^ 22) = pde)
    (second : entry ram (pde / 4096) (address / 4096 % 1024) = pte) : cellAt ram directory address =
      if pde % 2 = 0 ∨ pte % 2 = 0 then .absent
      else if pde / 4 % 2 = 1 ∧ pte / 4 % 2 = 1 then .user (ram (pte / 4096) (address % 4096))
      else .kernel (ram (pte / 4096) (address % 4096)) := by
  unfold cellAt translate
  dsimp only
  rw [first, second]
  by_cases absent : pde % 2 = 0
  · rw [if_pos absent, if_pos (Or.inl absent)]
  · rw [if_neg absent]
    by_cases none : pte % 2 = 0
    · rw [if_pos none, if_pos (Or.inr none)]
    · rw [if_neg none, if_neg (not_or.mpr ⟨absent, none⟩)]

/-- What a system call reads of the state: memory through the current page directory, the pid
of the process, and `pid_inc`. -/
structure View where
  cell : Nat → Cell
  cr3 : Nat
  pid : Nat
  pidInc : Nat

/-- What comes of a system call for the process that makes it. -/
inductive Answer where
  /-- It gets these registers, at once or when its turn comes. -/
  | returns (shown : List UInt8) (processState : ProcessState)
  | exits (shown : List UInt8)
  /-- The handler of page faults shows these addresses and stops the machine. -/
  | faults (shown : List UInt8) (cr2 cr3 : Nat)

/-- The registers the process gets, if it gets any. -/
def Answer.state : Answer → Option ProcessState
  | .returns _ processState => some processState
  | _ => none

inductive SystemCall where
  | sysPrint
  | yield
  | handleExit
  | getPid
  | fork
deriving DecidableEq

def sysCallTable : List SystemCall := [.sysPrint, .yield, .handleExit, .getPid, .fork]

namespace View

/-- What the two states show to user mode is the same. -/
structure Agrees (v v' : View) : Prop where
  cells : ∀ address, address < 2 ^ 32 → ∀ byte,
    v'.cell address = .user byte ↔ v.cell address = .user byte
  pid : v'.pid = v.pid
  pidInc : v'.pidInc = v.pidInc

/-- The long at an address, if all of it is mapped. -/
def long (v : View) (address : Nat) : Option Nat := do
  let b0 ← (v.cell address).byte
  let b1 ← (v.cell (u32 (address + 1))).byte
  let b2 ← (v.cell (u32 (address + 2))).byte
  let b3 ← (v.cell (u32 (address + 3))).byte
  pure (b0.toNat + 256 * b1.toNat + 65536 * b2.toNat + 16777216 * b3.toNat)

/-- The loop of `sys_print` for `n` characters from the `i`th on: what it shows, and the
address at which it faults. -/
def printLoop (v : View) (ebx i : Nat) : Nat → List UInt8 × Option Nat
  | 0 => ([], none)
  | n + 1 =>
      match (v.cell (u32 (ebx + i))).byte with
      | none => ([], some (u32 (ebx + i)))
      | some byte =>
          let rest := v.printLoop ebx (i + 1) n
          ((Printf.kernelPrintf (fun _ => []) [37, 99] [Printf.promoted byte]).2 ++ rest.1, rest.2)

def sysPrint (v : View) (processState : ProcessState) : Answer :=
  match v.printLoop processState.cpu.ebx 0 processState.cpu.ecx with
  | (shown, none) => .returns shown (Kernel.withEax processState 1)
  | (shown, some cr2) => .faults shown cr2 v.cr3

/-- The caller does not run on. -/
def handleExit (processState : ProcessState) : Answer :=
  .exits (if processState.cpu.ebx ≠ 0 then
    (Printf.kernelPrintf (fun _ => []) "Error: Process exited with code %u.".toUTF8.toList
      [processState.cpu.ebx]).2
  else [])

def answer (v : View) (processState : ProcessState) : SystemCall → Answer
  | .sysPrint => v.sysPrint processState
  | .yield => .returns [] processState
  | .handleExit => handleExit processState
  | .getPid => .returns [] (Kernel.withEax processState v.pid)
  | .fork => .returns [] (Kernel.withEax processState v.pidInc)

/-- `interupt_handler_128`, with `sys_call_table` at `table`. Past the end of the table the
long that is found there is called, and `wild` is what comes of that. -/
def interuptHandler128 (wild : Option Nat → View → ProcessState → Answer) (table : Nat) (v : View)
    (processState : ProcessState) : Answer :=
  let offset := u32 (processState.cpu.eax <<< 2)
  match sysCallTable[offset / 4]? with
  | some call => v.answer processState call
  | none => wild (v.long (u32 (table + offset))) v processState

/-- The number is one of the table's, up to the bits that the shift drops, and `sys_print` is
given bytes of user mode's. -/
def Safe (v : View) (processState : ProcessState) : Prop :=
  processState.cpu.eax % 2 ^ 30 < 5 ∧ (processState.cpu.eax % 2 ^ 30 = 0 →
    ∀ i, i < processState.cpu.ecx → ∃ byte, v.cell (u32 (processState.cpu.ebx + i)) = .user byte)

section Observing

variable {v v' : View} {processState : ProcessState} {ebx i n : Nat}

theorem offset_index (eax : Nat) : u32 (eax <<< 2) / 4 = eax % 2 ^ 30 := by
  unfold u32
  rw [Nat.shiftLeft_eq]
  omega

/-- The call of a number in the table. -/
theorem handler_call {wild : Option Nat → View → ProcessState → Answer} {table : Nat} {call : SystemCall}
    (found : sysCallTable[processState.cpu.eax % 2 ^ 30]? = some call) :
    v.interuptHandler128 wild table processState = v.answer processState call := by
  unfold interuptHandler128
  dsimp only
  rw [offset_index, found]

theorem sysCallTable_none : sysCallTable[i]? = none ↔ 5 ≤ i := List.getElem?_eq_none_iff

theorem sysCallTable_print : sysCallTable[i]? = some .sysPrint ↔ i = 0 := by
  constructor
  · intro found
    obtain ⟨inside, here⟩ := List.getElem?_eq_some_iff.mp found
    have entries : ∀ i (inside : i < 5), sysCallTable.get ⟨i, inside⟩ = .sysPrint → i = 0 := by decide
    exact entries i inside here
  · rintro rfl
    rfl

theorem printLoop_succ : v.printLoop ebx i (n + 1) = match (v.cell (u32 (ebx + i))).byte with
    | none => ([], some (u32 (ebx + i)))
    | some byte => (byte :: (v.printLoop ebx (i + 1) n).1, (v.printLoop ebx (i + 1) n).2) := by
  rw [printLoop]
  split
  · rfl
  · rw [Printf.kernelPrintf_char]
    rfl

/-- The loop depends on the bytes it shows. -/
theorem printLoop_congr (same : ∀ j, i ≤ j → j < i + n →
    (v'.cell (u32 (ebx + j))).byte = (v.cell (u32 (ebx + j))).byte) :
    v'.printLoop ebx i n = v.printLoop ebx i n := by
  induction n generalizing i with
  | zero => rfl
  | succ n ih =>
    rw [printLoop_succ, printLoop_succ, same i (Nat.le_refl _) (by omega),
      ih fun j lower upper => same j (by omega) (by omega)]

/-- The loop shows all where all is mapped. -/
theorem printLoop_mapped : (v.printLoop ebx i n).2 = none ↔
    ∀ j, i ≤ j → j < i + n → (v.cell (u32 (ebx + j))).byte ≠ none := by
  induction n generalizing i with
  | zero =>
    refine ⟨fun _ j lower upper => ?_, fun _ => rfl⟩
    omega
  | succ n ih =>
    rw [printLoop_succ]
    cases here : (v.cell (u32 (ebx + i))).byte with
    | none =>
      refine ⟨nofun, fun mapped => ?_⟩
      exact absurd here (mapped i (Nat.le_refl _) (by omega))
    | some byte =>
      refine ih.trans ⟨fun mapped j lower upper => ?_, fun mapped j lower upper => ?_⟩
      · by_cases first : j = i
        · rw [first, here]
          nofun
        · exact mapped j (by omega) (by omega)
      · exact mapped j (by omega) (by omega)

/-- Two loops that show the same have found the same bytes. -/
theorem printLoop_inj (same : v'.printLoop ebx i n = v.printLoop ebx i n)
    (whole : (v.printLoop ebx i n).2 = none) : ∀ j, i ≤ j → j < i + n →
      (v'.cell (u32 (ebx + j))).byte = (v.cell (u32 (ebx + j))).byte := by
  induction n generalizing i with
  | zero =>
    intro j lower upper
    omega
  | succ n ih =>
    intro j lower upper
    rw [printLoop_succ, printLoop_succ] at same
    rw [printLoop_succ] at whole
    cases here : (v.cell (u32 (ebx + i))).byte with
    | none =>
      rw [here] at whole
      cases whole
    | some byte =>
      rw [here] at same whole
      cases here' : (v'.cell (u32 (ebx + i))).byte with
      | none =>
        rw [here'] at same
        cases same
      | some byte' =>
        rw [here'] at same
        simp only [Prod.mk.injEq, List.cons.injEq] at same
        by_cases first : j = i
        · rw [first, here, here', same.1.1]
        · exact ih (Prod.ext same.1.2 same.2) whole j (by omega) (by omega)

/-- The state with other bytes wherever user mode sees none, under another directory. -/
def disguise (v : View) : View :=
  { v with
    cell := fun address => match v.cell address with
      | .kernel byte => .kernel (byte + 1)
      | cell => cell
    cr3 := v.cr3 + 1 }

theorem agrees_disguise (v : View) : v.Agrees v.disguise where
  cells := by
    intro address _ byte
    unfold disguise
    dsimp only
    cases v.cell address <;> simp
  pid := rfl
  pidInc := rfl

/-- A print of other bytes than user mode's shows the disguise. -/
theorem user_of_sysPrint (same : v.disguise.sysPrint processState = v.sysPrint processState)
    (inside : i < processState.cpu.ecx) :
    ∃ byte, v.cell (u32 (processState.cpu.ebx + i)) = .user byte := by
  unfold sysPrint at same
  cases loop : v.printLoop processState.cpu.ebx 0 processState.cpu.ecx with
  | mk shown fault =>
    cases loop' : v.disguise.printLoop processState.cpu.ebx 0 processState.cpu.ecx with
    | mk shown' fault' =>
      rw [loop, loop'] at same
      cases fault with
      | some cr2 =>
        -- the handler of page faults shows `cr3`
        cases fault' with
        | none => cases same
        | some cr2' =>
          simp only [Answer.faults.injEq, disguise] at same
          omega
      | none =>
        cases fault' with
        | some cr2' => cases same
        | none =>
          have whole : (v.printLoop processState.cpu.ebx 0 processState.cpu.ecx).2 = none := by
            rw [loop]
          simp only [Answer.returns.injEq, and_true] at same
          rw [same, ← loop] at loop'
          have mapped := printLoop_mapped.mp whole i (Nat.zero_le i) (by omega)
          have byte := printLoop_inj loop' whole i (Nat.zero_le i) (by omega)
          have cell : v.disguise.cell (u32 (processState.cpu.ebx + i)) =
            match v.cell (u32 (processState.cpu.ebx + i)) with
            | .kernel byte => .kernel (byte + 1)
            | cell => cell := rfl
          cases here : v.cell (u32 (processState.cpu.ebx + i)) with
          | absent =>
            rw [here] at mapped
            exact absurd rfl mapped
          | kernel value =>
            rw [cell, here] at byte
            have equal : value + 1 = value := Option.some.inj byte
            have next : (value + 1).toNat = value.toNat := by rw [equal]
            rw [UInt8.toNat_add] at next
            have one : UInt8.toNat 1 = 1 := rfl
            have := value.toNat_lt
            omega
          | user value => exact ⟨value, rfl⟩

/-- What a system call comes to depends on no more than user mode sees, whatever lies past the
table, exactly for the calls that are safe. -/
theorem interuptHandler128_iff (table : Nat) (v : View) (processState : ProcessState) :
    (∀ wild v', v.Agrees v' →
      v'.interuptHandler128 wild table processState = v.interuptHandler128 wild table processState) ↔
        v.Safe processState := by
  constructor
  · intro same
    have few : processState.cpu.eax % 2 ^ 30 < 5 := by
      by_contra past
      -- code past the table may show what the kernel knows
      have shows := same (fun _ v _ => .faults [] 0 v.cr3) v.disguise v.agrees_disguise
      unfold interuptHandler128 at shows
      dsimp only at shows
      rw [offset_index, sysCallTable_none.mpr (Nat.le_of_not_lt past)] at shows
      simp only [Answer.faults.injEq, disguise, true_and] at shows
      omega
    refine ⟨few, fun prints i inside => ?_⟩
    have shows := same (fun _ _ _ => .exits []) v.disguise v.agrees_disguise
    have number := sysCallTable_print.mpr prints
    rw [handler_call number, handler_call number] at shows
    exact user_of_sysPrint shows inside
  · intro safe wild v' agrees
    cases found : sysCallTable[processState.cpu.eax % 2 ^ 30]? with
    | none => exact absurd safe.1 (Nat.not_lt.mpr (sysCallTable_none.mp found))
    | some call =>
      rw [handler_call found, handler_call found]
      cases call with
      | sysPrint =>
        have bytes := safe.2 (sysCallTable_print.mp found)
        have cells : ∀ i, i < processState.cpu.ecx → ∃ byte,
            v.cell (u32 (processState.cpu.ebx + i)) = .user byte ∧
              v'.cell (u32 (processState.cpu.ebx + i)) = .user byte := by
          intro i inside
          obtain ⟨byte, here⟩ := bytes i inside
          exact ⟨byte, here, (agrees.cells _ (u32_lt _) byte).mpr here⟩
        have loop : v'.printLoop processState.cpu.ebx 0 processState.cpu.ecx =
            v.printLoop processState.cpu.ebx 0 processState.cpu.ecx := by
          refine printLoop_congr fun i _ inside => ?_
          obtain ⟨byte, here, there⟩ := cells i (by omega)
          rw [here, there]
        have whole : (v.printLoop processState.cpu.ebx 0 processState.cpu.ecx).2 = none := by
          refine printLoop_mapped.mpr fun i _ inside => ?_
          obtain ⟨byte, here, _⟩ := cells i (by omega)
          rw [here]
          nofun
        show v'.sysPrint processState = v.sysPrint processState
        unfold sysPrint
        rw [loop]
        generalize v.printLoop processState.cpu.ebx 0 processState.cpu.ecx = loop at whole
        obtain ⟨shown, fault⟩ := loop
        obtain rfl : fault = none := whole
        rfl
      | yield => rfl
      | handleExit => rfl
      | getPid =>
        show Answer.returns [] (Kernel.withEax processState v'.pid) = _
        rw [agrees.pid]
        rfl
      | fork =>
        show Answer.returns [] (Kernel.withEax processState v'.pidInc) = _
        rw [agrees.pidInc]
        rfl

end Observing

section Secret

/-- Memory in which user mode has page 0, in frame 4, and the kernel one page from 3 GiB on, in
frame 0, that is full of `secret`. -/
def secretRam (secret : UInt8) : Nat → Memory
  | 0 => fun _ => secret
  | 1 => store32 (fun _ => 0) (4 * 0) (4096 * 0 + 0x03)
  | 2 => store32 (store32 (fun _ => 0) (4 * 0) (4096 * 3 + 0x07)) (4 * 768) (4096 * 1 + 0x03)
  | 3 => store32 (fun _ => 0) (4 * 0) (4096 * 4 + 0x07)
  | _ => fun _ => 0

def secretView (secret : UInt8) : View := ⟨cellAt (secretRam secret) 2, 4096 * 2, 1, 2⟩

theorem zero_entry (address : Nat) : load32 (fun _ => 0) address = 0 := rfl

theorem secret_directory (secret : UInt8) (i : Nat) : entry (secretRam secret) 2 i =
    if i = 0 then 4096 * 3 + 0x07 else if i = 768 then 4096 * 1 + 0x03 else 0 := by
  show load32 (store32 (store32 _ (4 * 0) _) (4 * 768) _) (4 * i) = _
  by_cases kernel : i = 768
  · subst kernel
    rw [load32_store32_of_lt _ _ _ (by decide), if_neg (by decide), if_pos rfl]
  · rw [load32_store32_ne _ _ _ _ (by omega), if_neg kernel]
    by_cases user : i = 0
    · subst user
      rw [load32_store32_of_lt _ _ _ (by decide), if_pos rfl]
    · rw [load32_store32_ne _ _ _ _ (by omega), if_neg user, zero_entry]

theorem secret_tables (secret : UInt8) (i : Nat) :
    entry (secretRam secret) 3 i = (if i = 0 then 4096 * 4 + 0x07 else 0) ∧
      entry (secretRam secret) 1 i = if i = 0 then 0x03 else 0 := by
  constructor
  · show load32 (store32 _ (4 * 0) _) (4 * i) = _
    by_cases first : i = 0
    · subst first
      rw [load32_store32_of_lt _ _ _ (by decide), if_pos rfl]
    · rw [load32_store32_ne _ _ _ _ (by omega), if_neg first, zero_entry]
  · show load32 (store32 _ (4 * 0) _) (4 * i) = _
    by_cases first : i = 0
    · subst first
      rw [load32_store32_of_lt _ _ _ (by decide), if_pos rfl]
    · rw [load32_store32_ne _ _ _ _ (by omega), if_neg first, zero_entry]

theorem secret_cell (secret : UInt8) {address : Nat} (bound : address < 2 ^ 32) :
    (secretView secret).cell address = if address < 4096 then .user 0
      else if 0xC0000000 ≤ address ∧ address < 0xC0001000 then .kernel secret else .absent := by
  show cellAt (secretRam secret) 2 address = _
  have directory := secret_directory secret (address / 2 ^ 22)
  by_cases user : address / 2 ^ 22 = 0
  · rw [if_pos user] at directory
    have table := (secret_tables secret (address / 4096 % 1024)).1
    by_cases first : address / 4096 % 1024 = 0
    · rw [if_pos first] at table
      rw [if_pos (by omega), cellAt_entries directory table]
      rfl
    · rw [if_neg first] at table
      rw [if_neg (by omega), if_neg (by omega), cellAt_entries directory table]
      rfl
  rw [if_neg user] at directory
  by_cases kernel : address / 2 ^ 22 = 768
  · rw [if_pos kernel] at directory
    have table := (secret_tables secret (address / 4096 % 1024)).2
    by_cases first : address / 4096 % 1024 = 0
    · rw [if_pos first] at table
      rw [if_neg (by omega), if_pos (by omega), cellAt_entries directory table]
      rfl
    · rw [if_neg first] at table
      rw [if_neg (by omega), if_neg (by omega), cellAt_entries directory table]
      rfl
  · rw [if_neg kernel] at directory
    rw [if_neg (by omega), if_neg (by omega), cellAt_entries directory rfl]
    rfl

/-- Asked to print a byte of the kernel's, two states that agree for user mode show two bytes. -/
theorem print_leaks : ∃ (v v' : View) (processState : ProcessState), v.Agrees v' ∧
    ∀ wild table, v'.interuptHandler128 wild table processState ≠
      v.interuptHandler128 wild table processState := by
  let processState : ProcessState := ⟨⟨0, 0, 0, 0, 1, 0xC0000000, 0⟩, ⟨0, 0, 0, 0, 0⟩⟩
  refine ⟨secretView 1, secretView 2, processState, ⟨fun address bound byte => ?_, rfl, rfl⟩, ?_⟩
  · rw [secret_cell 1 bound, secret_cell 2 bound]
    split
    · rfl
    · split <;> simp
  · intro wild table same
    have shows : ∀ secret, (secretView secret).interuptHandler128 wild table processState =
        .returns [secret] (Kernel.withEax processState 1) := by
      intro secret
      have cell : (secretView secret).cell (u32 (0xC0000000 + 0)) = .kernel secret := by
        rw [secret_cell secret (u32_lt _)]
        rfl
      have number : sysCallTable[processState.cpu.eax % 2 ^ 30]? = some .sysPrint := rfl
      rw [handler_call number]
      unfold answer sysPrint
      rw [show processState.cpu.ecx = 0 + 1 from rfl, printLoop_succ,
        show processState.cpu.ebx = 0xC0000000 from rfl, cell]
      rfl
    rw [shows, shows] at same
    simp at same

end Secret

end View

namespace System

open Kernel

variable {M : Machine}

/-- What a system call of the running process reads of the kernel's state. -/
def view (k : Kernel M) : View := ⟨cellAt k.ram (k.cr3 / 4096), k.cr3, pidOf k k.current, k.pidInc⟩

/-- The call that the table's entry makes. -/
def callOf (before : Process) (processState : ProcessState) : SystemCall → Call
  | .sysPrint => .print processState
  | .yield => .yield processState
  | .handleExit => .handleExit processState
  | .getPid => .getPid processState
  | .fork => .fork processState before

theorem cellAt_byte (ram : Nat → Memory) (directory address : Nat) :
    (cellAt ram directory address).byte =
      (translate ram directory address).map fun place => ram place.1 place.2 := by
  unfold cellAt
  cases translate ram directory address with
  | none => rfl
  | some place =>
    dsimp only
    split <;> rfl

/-- A cell is user mode's where user mode reaches the page. -/
theorem cellAt_user {ram : Nat → Memory} {directory address : Nat} {byte : UInt8}
    (bound : address < 2 ^ 32) : cellAt ram directory address = .user byte ↔
      ∃ f, UserPage ram directory (address / 2 ^ 22) (address / 4096 % 1024) f ∧
        ram f (address % 4096) = byte := by
  rw [cellAt_entries rfl rfl]
  constructor
  · intro found
    split at found
    · cases found
    next present =>
      split at found
      · next user =>
        cases found
        refine ⟨_, ⟨by omega, Nat.mod_lt _ (by decide), ⟨by omega, user.1⟩, ⟨by omega, user.2⟩, rfl⟩, rfl⟩
      · cases found
  · rintro ⟨f, page, rfl⟩
    have directory := page.directory
    have table := page.table
    rw [if_neg (by omega), if_pos ⟨directory.2, table.2⟩, page.frame]

/-- After any calls user mode's cells lie below the kernel half: a print that reaches into it
is not safe. -/
theorem run_user_cells (calls : List Call) :
    Command.Ensures (Stops M) (boot M) (run calls) fun _ s =>
      s.kernel.current ≠ 0 → ∀ address byte, address < 2 ^ 32 →
        (view s.kernel).cell address = .user byte → address < 0xC0000000 := by
  apply (boot_sound.run calls).mono
  rintro _ s ⟨w, order, sound⟩ running address byte bound user
  obtain ⟨o, b, m, known, owner, ready, directory⟩ := sound.current_known running
  obtain ⟨f, page, _⟩ := (cellAt_user bound).mp user
  rw [directory] at page
  have slot := sound.accounts.user_slot owner ready page
  omega

/-- A print that returns has found all of its text mapped. -/
theorem ensures_print_mapped (s : System M) (processState : ProcessState) :
    Command.Ensures (Stops M) s (step (.print processState)) fun _ _ =>
      ∀ i, i < processState.cpu.ecx →
        ((view s.kernel).cell (u32 (processState.cpu.ebx + i))).byte ≠ none := by
  apply ensures_systemCall
  intro _
  unfold sysPrint
  refine Command.ensures_get_bind (Command.ensures_ite (fun mapped => ?_) fun _ => ?_)
  · refine Command.ensures_pure _ fun i inside => ?_
    have here := List.all_eq_true.mp mapped i (List.mem_range.mpr inside)
    show (cellAt s.kernel.ram (s.kernel.cr3 / 4096) _).byte ≠ none
    rw [cellAt_byte, ne_eq, Option.map_eq_none_iff]
    intro absent
    rw [absent] at here
    cases here
  · exact Command.ensures_throw _ id

/-- After any calls, each system call comes to what its answer says: the process that makes it
is due to get back the registers of the answer, and none if there are none. -/
theorem run_answers (calls : List Call) (call : SystemCall) (processState : ProcessState)
    (before : Process) :
    Command.Ensures (Stops M) (boot M) (run calls) fun _ s =>
      Command.Ensures (Stops M) s (step (callOf before processState call)) fun _ s' =>
        ∀ dues, settle s.kernel s'.kernel dues (callOf before processState call) s.kernel.current =
          ((view s.kernel).answer processState call).state := by
  apply (boot_sound.run calls).mono
  rintro _ s ⟨w, order, sound⟩
  have steps := sound.step (callOf before processState call)
  cases call with
  | sysPrint =>
    apply (ensures_print_mapped s processState).mono
    intro _ s' mapped dues
    have whole : ((view s.kernel).printLoop processState.cpu.ebx 0 processState.cpu.ecx).2 = none :=
      View.printLoop_mapped.mpr fun i _ inside => mapped i (by omega)
    show Function.update dues _ _ _ = ((view s.kernel).sysPrint processState).state
    unfold View.sysPrint
    generalize (view s.kernel).printLoop processState.cpu.ebx 0 processState.cpu.ecx = loop at whole
    obtain ⟨shown, fault⟩ := loop
    obtain rfl : fault = none := whole
    exact Function.update_self ..
  | yield =>
    refine steps.mono fun _ s' _ dues => ?_
    exact Function.update_self ..
  | handleExit =>
    refine steps.mono fun _ s' _ dues => ?_
    exact Function.update_self ..
  | getPid =>
    refine steps.mono fun _ s' _ dues => ?_
    exact Function.update_self ..
  | fork =>
    apply steps.mono
    rintro _ s' ⟨w', order', sound', _, o, memory, joins⟩ dues
    obtain ⟨_, detail⟩ := joins.last sound.linked sound'.linked
    have known : s'.kernel.detail s'.kernel.last =
        some (o, childProcess processState memory s.kernel.pidInc) := by
      rw [detail, Function.update_self]
    have due : settle s.kernel s'.kernel dues (.fork processState before) s.kernel.current =
        some (withEax processState (pidOf s'.kernel s'.kernel.last)) := Function.update_self ..
    rw [pidOf_known known] at due
    exact due

end System

end Snfos
