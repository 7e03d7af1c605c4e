import Mathlib.Algebra.Group.Nat.Defs
import Mathlib.Logic.Function.Basic

set_option autoImplicit false

/- Byte-addressed memory with little-endian 32-bit words. Addresses are natural
numbers: a caller that computes them modulo a word size does so itself. -/
namespace ByteMemory

abbrev Memory := Nat → UInt8

/-- The range `[lo, hi)` is the only part of memory that differs. -/
def SameOutside (before after : Memory) (lo hi : Nat) : Prop :=
  ∀ address, address < lo ∨ hi ≤ address → after address = before address

def load32 (m : Memory) (a : Nat) : Nat :=
  (m a).toNat + 2 ^ 8 * (m (a + 1)).toNat + 2 ^ 16 * (m (a + 2)).toNat +
    2 ^ 24 * (m (a + 3)).toNat

def store8 (m : Memory) (a : Nat) (v : UInt8) : Memory :=
  fun b => if b = a then v else m b

def store32 (m : Memory) (a v : Nat) : Memory :=
  fun b =>
    if b = a then UInt8.ofNat v
    else if b = a + 1 then UInt8.ofNat (v / 2 ^ 8)
    else if b = a + 2 then UInt8.ofNat (v / 2 ^ 16)
    else if b = a + 3 then UInt8.ofNat (v / 2 ^ 24)
    else m b

/-- `n` bytes from `a` set to `v`. -/
def fill (m : Memory) (a n : Nat) (v : UInt8) : Memory :=
  fun b => if a ≤ b ∧ b < a + n then v else m b

/-- The bytes of `source` from `b` written to `a`, `n` of them. -/
def copy (m : Memory) (a : Nat) (source : Memory) (b n : Nat) : Memory :=
  fun c => if a ≤ c ∧ c < a + n then source (b + (c - a)) else m c

/-- The bytes of a list written from `a` on. -/
def storeBytes (m : Memory) (a : Nat) : List UInt8 → Memory
  | [] => m
  | v :: rest => storeBytes (store8 m a v) (a + 1) rest

theorem load32_lt (m : Memory) (a : Nat) : load32 m a < 2 ^ 32 := by
  have h0 := (m a).toNat_lt
  have h1 := (m (a + 1)).toNat_lt
  have h2 := (m (a + 2)).toNat_lt
  have h3 := (m (a + 3)).toNat_lt
  unfold load32
  omega

theorem load32_congr {m m' : Memory} {a : Nat}
    (same : ∀ b, a ≤ b → b < a + 4 → m' b = m b) : load32 m' a = load32 m a := by
  unfold load32
  rw [same a (by omega) (by omega), same (a + 1) (by omega) (by omega),
    same (a + 2) (by omega) (by omega), same (a + 3) (by omega) (by omega)]

@[simp] theorem store8_at (m : Memory) (a : Nat) (v : UInt8) : store8 m a v a = v := by
  simp only [store8, ↓reduceIte]

theorem store8_ne (m : Memory) (a b : Nat) (v : UInt8) (apart : b ≠ a) :
    store8 m a v b = m b := by
  simp only [store8, apart, ↓reduceIte]

theorem store32_ne (m : Memory) (a b v : Nat) (apart : b < a ∨ a + 4 ≤ b) :
    store32 m a v b = m b := by
  unfold store32
  rw [if_neg (by omega), if_neg (by omega), if_neg (by omega), if_neg (by omega)]

theorem load32_store32 (m : Memory) (a v : Nat) : load32 (store32 m a v) a = v % 2 ^ 32 := by
  have h1 : a + 1 ≠ a := by omega
  have h2 : a + 2 ≠ a ∧ a + 2 ≠ a + 1 := by omega
  have h3 : a + 3 ≠ a ∧ a + 3 ≠ a + 1 ∧ a + 3 ≠ a + 2 := by omega
  simp only [load32, store32, ↓reduceIte, h1, h2, h3, UInt8.toNat_ofNat']
  omega

theorem load32_store32_of_lt (m : Memory) (a v : Nat) (bound : v < 2 ^ 32) :
    load32 (store32 m a v) a = v := by
  rw [load32_store32, Nat.mod_eq_of_lt bound]

theorem load32_store32_ne (m : Memory) (a b v : Nat) (apart : b + 4 ≤ a ∨ a + 4 ≤ b) :
    load32 (store32 m a v) b = load32 m b := by
  apply load32_congr
  intro c lower upper
  exact store32_ne m a c v (by omega)

theorem load32_store8_ne (m : Memory) (a b : Nat) (v : UInt8) (apart : a < b ∨ b + 4 ≤ a) :
    load32 (store8 m a v) b = load32 m b := by
  apply load32_congr
  intro c lower upper
  exact store8_ne m a c v (by omega)

theorem storeBytes_ne (bytes : List UInt8) (m : Memory) (a b : Nat)
    (outside : b < a ∨ a + bytes.length ≤ b) : storeBytes m a bytes b = m b := by
  induction bytes generalizing m a with
  | nil => rfl
  | cons v rest ih =>
    rw [List.length_cons] at outside
    exact (ih (store8 m a v) (a + 1) (by omega)).trans (store8_ne m a b v (by omega))

theorem storeBytes_at (bytes : List UInt8) (m : Memory) (a i : Nat) (v : UInt8)
    (here : bytes[i]? = some v) : storeBytes m a bytes (a + i) = v := by
  induction bytes generalizing m a i with
  | nil => cases here
  | cons head rest ih =>
    cases i with
    | zero =>
      cases here
      exact (storeBytes_ne rest (store8 m a v) (a + 1) a (by omega)).trans (store8_at m a v)
    | succ i =>
      have next := ih (store8 m a head) (a + 1) i here
      rwa [show a + 1 + i = a + (i + 1) by omega] at next

theorem load32_fill_zero (m : Memory) (a n b : Nat) (lower : a ≤ b) (upper : b + 4 ≤ a + n) :
    load32 (fill m a n 0) b = 0 := by
  have inside : ∀ c, b ≤ c → c < b + 4 → fill m a n 0 c = 0 := by
    intro c low high
    unfold fill
    rw [if_pos (by omega)]
  unfold load32
  rw [inside b (by omega) (by omega), inside (b + 1) (by omega) (by omega),
    inside (b + 2) (by omega) (by omega), inside (b + 3) (by omega) (by omega)]
  rfl

theorem SameOutside.refl (m : Memory) (lo hi : Nat) : SameOutside m m lo hi := fun _ _ => rfl

theorem SameOutside.trans {first second third : Memory} {lo hi : Nat}
    (left : SameOutside first second lo hi) (right : SameOutside second third lo hi) :
    SameOutside first third lo hi :=
  fun address outside => (right address outside).trans (left address outside)

theorem SameOutside.mono {before after : Memory} {lo hi lo' hi' : Nat}
    (same : SameOutside before after lo hi) (lower : lo' ≤ lo) (upper : hi ≤ hi') :
    SameOutside before after lo' hi' :=
  fun address outside => same address (by omega)

theorem sameOutside_store8 (m : Memory) (a : Nat) (v : UInt8) (lo hi : Nat)
    (lower : lo ≤ a) (upper : a < hi) : SameOutside m (store8 m a v) lo hi :=
  fun b outside => store8_ne m a b v (by omega)

theorem sameOutside_store32 (m : Memory) (a v lo hi : Nat)
    (lower : lo ≤ a) (upper : a + 4 ≤ hi) : SameOutside m (store32 m a v) lo hi :=
  fun b outside => store32_ne m a b v (by omega)

theorem SameOutside.load32 {before after : Memory} {lo hi : Nat}
    (same : SameOutside before after lo hi) (a : Nat) (outside : a + 4 ≤ lo ∨ hi ≤ a) :
    ByteMemory.load32 after a = ByteMemory.load32 before a :=
  load32_congr (fun b lower upper => same b (by omega))

end ByteMemory
