import RiscyOs.Lib.ByteMemory

/-!
# Ranges of bytes, read and written whole

`Mem.read` is the list of the bytes of a range, and `Mem.write` puts a list in the place of a range.

* `eq_write_iff`: a memory is the one written when it has the list in the range, and is as it was
  elsewhere.
* `read_cons`, `write_cons`: a range byte by byte.
-/

namespace ByteMemory

/-- The `n` bytes at `a`. -/
def Mem.read (m : Mem) (a n : Nat) : List UInt8 := (List.range n).map fun i => m (a + i)

/-- `bs` at `a`. -/
def Mem.write (m : Mem) (a : Nat) (bs : List UInt8) : Mem :=
  fun x => if a ≤ x ∧ x < a + bs.length then bs.getD (x - a) 0 else m x

variable {m m' : Mem} {a n : Nat} {bs : List UInt8}

theorem length_read (m : Mem) (a n : Nat) : (m.read a n).length = n := by
  rw [Mem.read, List.length_map, List.length_range]

theorem getD_read {i : Nat} (h : i < n) : (m.read a n).getD i 0 = m (a + i) := by
  rw [Mem.read, List.getD_eq_getElem?_getD, List.getElem?_map, List.getElem?_range h]
  rfl

theorem read_cons (m : Mem) (a n : Nat) : m.read a (n + 1) = m a :: m.read (a + 1) n := by
  rw [Mem.read, List.range_succ_eq_map, List.map_cons, List.map_map, Nat.add_zero, Mem.read]
  congr 1
  refine List.map_congr_left fun i _ => ?_
  rw [Function.comp_apply, Nat.succ_eq_add_one, Nat.add_assoc, Nat.add_comm 1 i]

/-- **What it takes to have written a list.** -/
theorem eq_write_iff : m' = m.write a bs ↔
    (∀ i < bs.length, m' (a + i) = bs.getD i 0) ∧
      ∀ x, x < a ∨ a + bs.length ≤ x → m' x = m x := by
  constructor
  · rintro rfl
    constructor
    · intro i hi
      rw [Mem.write, if_pos ⟨Nat.le_add_right a i, Nat.add_lt_add_left hi a⟩,
        Nat.add_sub_cancel_left]
    · intro x hx
      rw [Mem.write, if_neg (by omega)]
  · rintro ⟨hin, hout⟩
    funext x
    rw [Mem.write]
    split_ifs with hx
    · rw [← hin (x - a) (by omega), Nat.add_sub_cancel' hx.1]
    · exact hout x (by omega)

/-- The first byte of a list is written, and then the others. -/
theorem write_cons (m : Mem) (a : Nat) (b : UInt8) (bs : List UInt8) :
    m.write a (b :: bs) = Mem.write (Function.update m a b) (a + 1) bs := by
  symm
  rw [eq_write_iff]
  obtain ⟨hin, hout⟩ := (eq_write_iff (m := Function.update m a b)).1
    (rfl : Mem.write (Function.update m a b) (a + 1) bs = _)
  constructor
  · intro i hi
    rw [List.length_cons] at hi
    cases i with
    | zero => exact (hout a (.inl (Nat.lt_succ_self a))).trans (Function.update_self ..)
    | succ i =>
      rw [← Nat.add_assoc, Nat.add_right_comm, hin i (by omega)]
      rfl
  · intro x hx
    rw [List.length_cons] at hx
    rw [hout x (by omega), Function.update_of_ne (by omega)]

theorem write_nil (m : Mem) (a : Nat) : m.write a [] = m := by
  symm
  rw [eq_write_iff]
  exact ⟨fun i hi => absurd hi (Nat.not_lt_zero i), fun x _ => rfl⟩

end ByteMemory
