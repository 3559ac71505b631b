import RiscyOs.Lib.ByteMemory
import RiscyOs.Lib.FuelLoop

/-!
# The machine the kernel runs on

A C function becomes a function into `Result`: it returns, or it stops with a `Fault`. Pointers
and `size_t` are natural numbers below `2 ^ 64`, and the arithmetic the compiler does on them is
`wadd`, `wsub` and `wmul`, all modulo `2 ^ 64`. A cast to `ssize_t` is `toSigned`.

A range `[start, start + size)` *does not wrap* when the machine sum `start + size` does not,
that is when `start + size < 2 ^ 64`.
-/

namespace RiscyOs

open ByteMemory

/-- The ways a run can end without returning. -/
inductive Fault where
  /-- A loop or a recursion of the model was cut off. -/
  | outOfFuel
  /-- A byte outside the view was read. -/
  | unmapped
  /-- A field of the structure at address `0` was read or written. The run ends there by
  convention: on the machine the access may go through. -/
  | nullDeref
  /-- An `assert` failed. -/
  | abort
  /-- A local array was indexed outside its bounds, or read where it was never written. -/
  | outOfBounds
  deriving Repr, DecidableEq

/-- The error codes of `include/kernel/error.h`; `KERR_NONE` is `KERR_SUCCESS`. -/
inductive KError where
  | success | exist | noExist | full | empty | invalid | busy | unimpl | unknown
  deriving Repr, DecidableEq

abbrev Result (α : Type) := Except Fault α

abbrev NULL : Nat := 0

theorem ok_bind {α β : Type} (a : α) (f : α → Result β) : (Except.ok a >>= f) = f a := rfl

theorem bind_eq_ok {α β : Type} {x : Result α} {f : α → Result β} {r : β} :
    (x >>= f) = .ok r ↔ ∃ a, x = .ok a ∧ f a = .ok r := by
  cases x with
  | error e => simp [bind, Except.bind]
  | ok a => simp [bind, Except.bind]

theorem pure_eq_ok {α : Type} (a : α) : (pure a : Result α) = .ok a := rfl

/-! ## Words -/

def wadd (a b : Nat) : Nat := (a + b) % 2 ^ 64

def wsub (a b : Nat) : Nat := (a + (2 ^ 64 - b % 2 ^ 64)) % 2 ^ 64

def wmul (a b : Nat) : Nat := (a * b) % 2 ^ 64

/-- The cast from `size_t` to `ssize_t`. -/
def toSigned (a : Nat) : Int := if a < 2 ^ 63 then a else (a : Int) - 2 ^ 64

/-- The cast from a signed word to `size_t`. -/
def ofSigned (i : Int) : Nat := (i % 2 ^ 64).toNat

/-- Subtraction of `ssize_t`. Signed overflow is undefined in C; here the result wraps, as the
machine's does. -/
def ssub (a b : Int) : Int := toSigned (ofSigned (a - b))

theorem wadd_eq {a b : Nat} (h : a + b < 2 ^ 64) : wadd a b = a + b := Nat.mod_eq_of_lt h

theorem wadd_zero {a : Nat} (h : a < 2 ^ 64) : wadd a 0 = a := Nat.mod_eq_of_lt h

theorem wadd_lt (a b : Nat) : wadd a b < 2 ^ 64 := Nat.mod_lt _ (by norm_num)

theorem wadd_ne {a k b : Nat} (hlo : b < a + k) (hhi : a + k < b + 2 ^ 64) : wadd a k ≠ b := by
  unfold wadd
  omega

theorem wsub_lt (a b : Nat) : wsub a b < 2 ^ 64 := Nat.mod_lt _ (by norm_num)

theorem wsub_eq {a b : Nat} (h : b ≤ a) (ha : a < 2 ^ 64) : wsub a b = a - b := by
  unfold wsub
  omega

/-! ## Reading through a view -/

/-- Read a byte of the view. -/
def byteAt (v : View) (a : Nat) : Result UInt8 :=
  match v a with
  | some b => .ok b
  | none => .error .unmapped

/-- `be32toh(*(uint32_t*)a)`: on either endianness this is the big-endian word at `a`. -/
def be32 (v : View) (a : Nat) : Result Nat :=
  match v.loadBE a 4 with
  | some x => .ok x
  | none => .error .unmapped

/-- `be64toh(*(uint64_t*)a)`. -/
def be64 (v : View) (a : Nat) : Result Nat :=
  match v.loadBE a 8 with
  | some x => .ok x
  | none => .error .unmapped

theorem be32_of_holds {v : View} {a x : Nat} (hx : x < 2 ^ 32) (h : v.Holds a (beBytes 4 x)) :
    be32 v a = .ok x := by
  have hload := View.loadBE_eq_of_holds h
  rw [length_beBytes, beNat_beBytes (by norm_num at hx ⊢; exact hx)] at hload
  rw [be32, hload]

theorem be64_of_holds {v : View} {a x : Nat} (hx : x < 2 ^ 64) (h : v.Holds a (beBytes 8 x)) :
    be64 v a = .ok x := by
  have hload := View.loadBE_eq_of_holds h
  rw [length_beBytes, beNat_beBytes (by norm_num at hx ⊢; exact hx)] at hload
  rw [be64, hload]

theorem be32_lt {v : View} {a x : Nat} (h : be32 v a = .ok x) : x < 2 ^ 32 := by
  unfold be32 at h
  cases hload : v.loadBE a 4 with
  | none => rw [hload] at h; cases h
  | some y =>
    rw [hload] at h
    cases h
    exact (View.loadBE_lt hload).trans_eq (by norm_num)

theorem be32_slice {v : View} {a off : Nat} {bs : List UInt8} (h : v.Holds a bs)
    (hle : off + 4 ≤ bs.length) : be32 v (a + off) = .ok (beNat ((bs.drop off).take 4)) := by
  rw [be32, View.loadBE_slice h hle]

theorem be64_slice {v : View} {a off : Nat} {bs : List UInt8} (h : v.Holds a bs)
    (hle : off + 8 ≤ bs.length) : be64 v (a + off) = .ok (beNat ((bs.drop off).take 8)) := by
  rw [be64, View.loadBE_slice h hle]

/-- The bytes of a word that is read in a part of a view lie in that part. -/
theorem be32_of_only {v : View} {a n b x : Nat} (h : be32 (v.only a n) b = .ok x) :
    be32 v b = .ok x ∧ a ≤ b ∧ b + 4 ≤ a + n := by
  unfold be32 View.loadBE at h
  cases hbytes : (v.only a n).bytes b 4 with
  | none => rw [hbytes] at h; cases h
  | some bs =>
    rw [hbytes] at h
    rw [be32, View.loadBE, View.bytes_of_only hbytes]
    exact ⟨h, View.le_of_bytes_only hbytes⟩

theorem be64_of_only {v : View} {a n b x : Nat} (h : be64 (v.only a n) b = .ok x) :
    be64 v b = .ok x ∧ a ≤ b ∧ b + 8 ≤ a + n := by
  unfold be64 View.loadBE at h
  cases hbytes : (v.only a n).bytes b 8 with
  | none => rw [hbytes] at h; cases h
  | some bs =>
    rw [hbytes] at h
    rw [be64, View.loadBE, View.bytes_of_only hbytes]
    exact ⟨h, View.le_of_bytes_only hbytes⟩

theorem be32_total {v : View} (h : v.Total) (a : Nat) : ∃ x, be32 v a = .ok x := by
  obtain ⟨x, hx⟩ := h.loadBE a 4
  exact ⟨x, by rw [be32, hx]⟩

theorem be64_total {v : View} (h : v.Total) (a : Nat) : ∃ x, be64 v a = .ok x := by
  obtain ⟨x, hx⟩ := h.loadBE a 8
  exact ⟨x, by rw [be64, hx]⟩

theorem be32_of_agrees {v v' : View} {a : Nat} (h : View.Agrees v v' a (a + 4)) :
    be32 v' a = be32 v a := by
  rw [be32, be32, View.loadBE_of_agrees h]

theorem be64_of_agrees {v v' : View} {a : Nat} (h : View.Agrees v v' a (a + 8)) :
    be64 v' a = be64 v a := by
  rw [be64, be64, View.loadBE_of_agrees h]

end RiscyOs
