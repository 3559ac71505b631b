import Mathlib.Data.List.Range
import RiscyOs.Lib.ParallelMove
import RiscyOs.Machine

/-!
# `memmove`

Each of the two loops makes the moves `dest[i] = src[i]` in an order of its own. The comparison of
the pointers picks the one in which no byte of the source is written before it is read.
-/

namespace RiscyOs

open ByteMemory ParallelMove

/-- `dest_p[i] = src_p[i]` -/
def copyByte (dest src : Nat) (m : Mem) (i : Nat) : Mem := move (wadd dest) (wadd src) m i

/-- The passes `i`, …, `i + n - 1` of the loop that counts up. -/
def memmoveUp (dest src : Nat) : Nat → Nat → Mem → Mem
  | _, 0, m => m
  | i, n + 1, m => memmoveUp dest src (i + 1) n (copyByte dest src m i)

/-- The loop that counts down; its argument is the `i` that `i-- > 0` tests. -/
def memmoveDown (dest src : Nat) : Nat → Mem → Mem
  | 0, m => m
  | i + 1, m => memmoveDown dest src i (copyByte dest src m i)

/-- The pointer returned, and the memory after. -/
def memmove (m : Mem) (dest src count : Nat) : Result (Nat × Mem) :=
  if dest = NULL ∨ src = NULL then .error .abort
  else if dest < src then .ok (dest, memmoveUp dest src 0 count m)
  else .ok (dest, memmoveDown dest src count m)

variable {dest src count : Nat}

/-! ## The loops as moves -/

theorem memmoveUp_eq_moves (i n : Nat) (m : Mem) :
    memmoveUp dest src i n m = moves (wadd dest) (wadd src) m (List.range' i n) := by
  induction n generalizing i m with
  | zero => rfl
  | succ n ih => rw [memmoveUp, ih, List.range'_succ, moves, copyByte]

theorem memmoveDown_eq_moves (i : Nat) (m : Mem) :
    memmoveDown dest src i m = moves (wadd dest) (wadd src) m (List.range i).reverse := by
  induction i generalizing m with
  | zero => rfl
  | succ i ih => rw [memmoveDown, ih, List.range_succ, List.reverse_append, List.reverse_singleton,
      List.singleton_append, moves, copyByte]

/-- Upwards, what has been written lies below the bytes still to be read. -/
theorem ordered_range' (hlt : dest < src) (hs : src + count ≤ 2 ^ 64) :
    Ordered (wadd dest) (wadd src) (List.range' 0 count) := by
  refine List.Pairwise.imp_of_mem ?_ List.pairwise_lt_range'
  intro i j hi hj hij
  rw [List.mem_range'_1] at hi hj
  rw [wadd_eq (by omega), wadd_eq (by omega), wadd_eq (by omega)]
  omega

/-- Downwards, it lies above them. -/
theorem ordered_reverse_range (hle : src ≤ dest) (hd : dest + count ≤ 2 ^ 64)
    (hs : src + count ≤ 2 ^ 64) : Ordered (wadd dest) (wadd src) (List.range count).reverse := by
  rw [Ordered, List.pairwise_reverse]
  refine List.Pairwise.imp_of_mem ?_ List.pairwise_lt_range
  intro i j hi hj hij
  rw [List.mem_range] at hi hj
  rw [wadd_eq (by omega), wadd_eq (by omega), wadd_eq (by omega)]
  omega

/-- Moves of all `count` bytes, in whichever order. -/
theorem Moved.bytes {m m' : Mem} {is : List Nat} (h : Moved (wadd dest) (wadd src) is m m')
    (hmem : ∀ i, i ∈ is ↔ i < count) (hd : dest + count ≤ 2 ^ 64) (hs : src + count ≤ 2 ^ 64) :
    (∀ i < count, m' (dest + i) = m (src + i)) ∧
      ∀ b, b < dest ∨ dest + count ≤ b → m' b = m b := by
  constructor
  · intro i hi
    have hmoved := h.moved i ((hmem i).2 hi)
    rwa [wadd_eq (by omega), wadd_eq (by omega)] at hmoved
  · intro b hb
    refine h.kept b fun i hi => ?_
    have hlt := (hmem i).1 hi
    rw [wadd_eq (by omega)]
    omega

/-- **`memmove` copies the bytes the source held before the call, and writes nowhere else.** A range
may end at `2 ^ 64`. -/
theorem memmove_spec (m : Mem) (hd : dest + count ≤ 2 ^ 64) (hs : src + count ≤ 2 ^ 64) :
    (dest = NULL ∨ src = NULL) ∧ memmove m dest src count = .error .abort ∨
      ∃ m', memmove m dest src count = .ok (dest, m') ∧
        (∀ i < count, m' (dest + i) = m (src + i)) ∧
        ∀ b, b < dest ∨ dest + count ≤ b → m' b = m b := by
  by_cases hnull : dest = NULL ∨ src = NULL
  · exact .inl ⟨hnull, if_pos hnull⟩
  right
  by_cases hlt : dest < src
  · refine ⟨memmoveUp dest src 0 count m, ?_, ?_⟩
    · rw [memmove, if_neg hnull, if_pos hlt]
    · rw [memmoveUp_eq_moves]
      refine Moved.bytes (moves_moved (ordered_range' hlt hs)) ?_ hd hs
      intro i
      rw [List.mem_range'_1]
      omega
  · refine ⟨memmoveDown dest src count m, ?_, ?_⟩
    · rw [memmove, if_neg hnull, if_neg hlt]
    · rw [memmoveDown_eq_moves]
      refine Moved.bytes (moves_moved (ordered_reverse_range (by omega) hd hs)) ?_ hd hs
      intro i
      rw [List.mem_reverse, List.mem_range]

/-- Five bytes moved up by two, over the last three of them. -/
theorem memmove_overlapping :
    ∃ m', memmove (fun a => UInt8.ofNat a) 102 100 5 = .ok (102, m') ∧
      (∀ i < 5, m' (102 + i) = UInt8.ofNat (100 + i)) ∧
      ∀ b, b < 102 ∨ 102 + 5 ≤ b → m' b = UInt8.ofNat b := by
  rcases @memmove_spec 102 100 5 (fun a => UInt8.ofNat a) (by decide) (by decide) with
    ⟨hnull, -⟩ | h
  · exact absurd hnull (by decide)
  · exact h

end RiscyOs
