import RiscyOs.CString
import RiscyOs.Lib.Blit
import RiscyOs.Lib.Ranges
import RiscyOs.Memmove

/-!
# Calls of the `mem` functions

`memset`, `memset_explicit`, `memcpy`, `memmove` and `memcmp` work on bytes, one at a time. A
program that calls them sees ranges that are read, written and compared whole.

* `runCalls_eq`: so does any sequence of calls, when it keeps to what the standard asks for. It
  aborts when one of them has a `NULL` pointer.
-/

namespace RiscyOs

open ByteMemory ParallelMove Ranges

/-! ## The code -/

/-- The passes `i`, …, `i + n - 1` of the loop of `memset`. -/
def memsetFrom (dest : Nat) (val : UInt8) : Nat → Nat → Mem → Mem
  | _, 0, m => m
  | i, n + 1, m => memsetFrom dest val (i + 1) n (Function.update m (wadd dest i) val)

def memset (m : Mem) (dest : Nat) (ch : Int) (count : Nat) : Result (Nat × Mem) :=
  if dest = NULL then .error .abort
  -- `(uint8_t)ch`
  else .ok (dest, memsetFrom dest (UInt8.ofNat (ch % 256).toNat) 0 count m)

def memsetExplicit (m : Mem) (dest : Nat) (ch : Int) (count : Nat) : Result (Nat × Mem) :=
  if dest = NULL then .error .abort else memset m dest ch count

/-- The loop is the one of `memmove` that counts up. -/
def memcpy (m : Mem) (dest src count : Nat) : Result (Nat × Mem) :=
  if dest = NULL ∨ src = NULL then .error .abort
  else .ok (dest, memmoveUp dest src 0 count m)

/-! ## Calls -/

inductive MemCall where
  | memset (dest : Nat) (ch : Int) (count : Nat)
  | memsetExplicit (dest : Nat) (ch : Int) (count : Nat)
  | memcpy (dest src count : Nat)
  | memmove (dest src count : Nat)
  | memcmp (lhs rhs count : Nat)
  deriving Repr, DecidableEq

/-- What a call returns. -/
inductive MemAnswer where
  | pointer (p : Nat)
  | sign (x : Int)
  deriving Repr, DecidableEq

def MemCall.run (m : Mem) : MemCall → Result (MemAnswer × Mem)
  | memset dest ch count => do
    let (p, m) ← RiscyOs.memset m dest ch count
    return (.pointer p, m)
  | memsetExplicit dest ch count => do
    let (p, m) ← RiscyOs.memsetExplicit m dest ch count
    return (.pointer p, m)
  | memcpy dest src count => do
    let (p, m) ← RiscyOs.memcpy m dest src count
    return (.pointer p, m)
  | memmove dest src count => do
    let (p, m) ← RiscyOs.memmove m dest src count
    return (.pointer p, m)
  | memcmp lhs rhs count => do
    let x ← RiscyOs.memcmp ⟨Mem.view m, lhs⟩ ⟨Mem.view m, rhs⟩ count
    return (.sign x, m)

/-- Run the calls one after the other. -/
def runCalls : Mem → List MemCall → Result (List MemAnswer × Mem)
  | m, [] => .ok ([], m)
  | m, c :: cs => do
    let (answer, m) ← c.run m
    let (answers, m) ← runCalls m cs
    return (answer :: answers, m)

/-! ## What they mean -/

/-- The sign of the first difference. -/
def lexSign (xs ys : List UInt8) : Int := if xs < ys then -1 else if ys < xs then 1 else 0

namespace MemCall

/-- The ranges do not wrap, and those of `memcpy`, which are `restrict`, have no byte in common. -/
def Valid : MemCall → Prop
  | memset dest _ count | memsetExplicit dest _ count => dest + count ≤ 2 ^ 64
  | memcpy dest src count =>
    dest + count ≤ 2 ^ 64 ∧ src + count ≤ 2 ^ 64 ∧ Misses (dest, count) (src, count)
  | memmove dest src count => dest + count ≤ 2 ^ 64 ∧ src + count ≤ 2 ^ 64
  | memcmp lhs rhs count => lhs + count ≤ 2 ^ 64 ∧ rhs + count ≤ 2 ^ 64

/-- The asserts fail. -/
def HasNull : MemCall → Prop
  | memset dest _ _ | memsetExplicit dest _ _ => dest = NULL
  | memcpy dest src _ | memmove dest src _ => dest = NULL ∨ src = NULL
  | memcmp lhs rhs _ => lhs = NULL ∨ rhs = NULL

instance : DecidablePred HasNull
  | memset .. | memsetExplicit .. => inferInstanceAs (Decidable (_ = NULL))
  | memcpy .. | memmove .. | memcmp .. => inferInstanceAs (Decidable (_ ∨ _))

/-- The call on whole ranges. -/
def means (m : Mem) : MemCall → MemAnswer × Mem
  | memset dest ch count | memsetExplicit dest ch count =>
    (.pointer dest, m.write dest (List.replicate count (UInt8.ofNat (ch % 256).toNat)))
  | memcpy dest src count | memmove dest src count =>
    (.pointer dest, m.write dest (m.read src count))
  | memcmp lhs rhs count => (.sign (lexSign (m.read lhs count) (m.read rhs count)), m)

/-- The calls one after the other. -/
def meansAll : Mem → List MemCall → List MemAnswer × Mem
  | m, [] => ([], m)
  | m, c :: cs =>
    let (answers, m') := meansAll (c.means m).2 cs
    ((c.means m).1 :: answers, m')

end MemCall

/-! ## One call -/

variable {m m' : Mem} {dest src count : Nat}

/-- The loop of `memset` writes the byte `n` times. -/
theorem memsetFrom_eq {val : UInt8} {i n : Nat} (h : dest + i + n ≤ 2 ^ 64) :
    memsetFrom dest val i n m = m.write (dest + i) (List.replicate n val) := by
  induction n generalizing i m with
  | zero => rw [memsetFrom, List.replicate_zero, write_nil]
  | succ n ih =>
    rw [memsetFrom, wadd_eq (by omega), ih (by omega), List.replicate_succ, write_cons,
      Nat.add_assoc]

/-- Moves of all bytes write what was read. -/
theorem Moved.eq_write {is : List Nat} (h : Moved (wadd dest) (wadd src) is m m')
    (hmem : ∀ i, i ∈ is ↔ i < count) (hd : dest + count ≤ 2 ^ 64) (hs : src + count ≤ 2 ^ 64) :
    m' = m.write dest (m.read src count) := by
  obtain ⟨hin, hout⟩ := Moved.bytes h hmem hd hs
  rw [eq_write_iff, length_read]
  exact ⟨fun i hi => (hin i hi).trans (getD_read hi).symm, hout⟩

/-- Upwards no byte of the source is overwritten when the ranges have none in common. -/
theorem ordered_of_misses (hd : dest + count ≤ 2 ^ 64) (hs : src + count ≤ 2 ^ 64)
    (hmiss : Misses (dest, count) (src, count)) :
    Ordered (wadd dest) (wadd src) (List.range' 0 count) := by
  refine List.Pairwise.imp_of_mem ?_ List.pairwise_lt_range'
  intro i j hi hj hij
  rw [List.mem_range'_1] at hi hj
  rw [wadd_eq (by omega), wadd_eq (by omega), wadd_eq (by omega)]
  simp only [Misses] at hmiss
  omega

theorem mem_range'_zero (i : Nat) : i ∈ List.range' 0 count ↔ i < count := by
  rw [List.mem_range'_1]
  omega

theorem memcpy_eq (hvalid : (MemCall.memcpy dest src count).Valid) :
    memcpy m dest src count = if dest = NULL ∨ src = NULL then .error .abort
      else .ok (dest, m.write dest (m.read src count)) := by
  obtain ⟨hdest, hsrc, hmiss⟩ := hvalid
  have hmoved := moves_moved (m := m) (ordered_of_misses hdest hsrc hmiss)
  rw [memcpy, memmoveUp_eq_moves, Moved.eq_write hmoved mem_range'_zero hdest hsrc]

/-- In either direction. -/
theorem memmove_eq (hvalid : (MemCall.memmove dest src count).Valid) :
    memmove m dest src count = if dest = NULL ∨ src = NULL then .error .abort
      else .ok (dest, m.write dest (m.read src count)) := by
  obtain ⟨hdest, hsrc⟩ := hvalid
  rw [memmove]
  congr 1
  split_ifs with hlt
  · have hmoved := moves_moved (m := m) (ordered_range' hlt hsrc)
    rw [memmoveUp_eq_moves, Moved.eq_write hmoved mem_range'_zero hdest hsrc]
  · have hmoved := moves_moved (m := m) (ordered_reverse_range (not_lt.1 hlt) hdest hsrc)
    have hmem : ∀ i, i ∈ (List.range count).reverse ↔ i < count := fun i => by
      rw [List.mem_reverse, List.mem_range]
    rw [memmoveDown_eq_moves, Moved.eq_write hmoved hmem hdest hsrc]

/-- The first bytes decide, unless they are equal. -/
theorem lexSign_cons (b c : UInt8) (xs ys : List UInt8) :
    lexSign (b :: xs) (c :: ys) = if b < c then -1 else if c < b then 1 else lexSign xs ys := by
  by_cases hlt : b < c
  · rw [if_pos hlt, lexSign, if_pos (List.cons_lt_cons_iff.2 (.inl hlt))]
  · by_cases hgt : c < b
    · have hnot : ¬ b :: xs < c :: ys := by
        rw [List.cons_lt_cons_iff]
        exact not_or.2 ⟨hlt, fun h => UInt8.lt_irrefl b (h.1 ▸ hgt)⟩
      rw [if_neg hlt, if_pos hgt, lexSign, if_neg hnot, if_pos (List.cons_lt_cons_iff.2 (.inl hgt))]
    · obtain rfl : b = c := UInt8.le_antisymm (UInt8.not_lt.1 hgt) (UInt8.not_lt.1 hlt)
      simp [lexSign]

/-- The loop of `memcmp` finds the first difference. -/
theorem memcmpFrom_read {lhs rhs i n : Nat} :
    memcmpFrom ⟨Mem.view m, lhs⟩ ⟨Mem.view m, rhs⟩ i n =
      .ok (lexSign (m.read (lhs + i) n) (m.read (rhs + i) n)) := by
  induction n generalizing i with
  | zero => rfl
  | succ n ih =>
    have hl : CStr.char ⟨Mem.view m, lhs⟩ i = .ok (m (lhs + i)) := rfl
    have hr : CStr.char ⟨Mem.view m, rhs⟩ i = .ok (m (rhs + i)) := rfl
    rw [memcmpFrom, hl, hr, ok_bind, ok_bind, read_cons, read_cons, ih, lexSign_cons]
    split_ifs <;> rfl

/-! ## Runs -/

/-- **A call is what it means**, or aborts. -/
theorem MemCall.run_eq {c : MemCall} (hvalid : c.Valid) :
    c.run m = if c.HasNull then .error .abort else .ok (c.means m) := by
  by_cases hnull : c.HasNull
  · rw [if_pos hnull]
    cases c with
    | memset dest ch count =>
      have hdest : dest = NULL := hnull
      rw [run, RiscyOs.memset, if_pos hdest]
      rfl
    | memsetExplicit dest ch count =>
      have hdest : dest = NULL := hnull
      rw [run, RiscyOs.memsetExplicit, if_pos hdest]
      rfl
    | memcpy dest src count =>
      have hone : dest = NULL ∨ src = NULL := hnull
      rw [run, memcpy_eq hvalid, if_pos hone]
      rfl
    | memmove dest src count =>
      have hone : dest = NULL ∨ src = NULL := hnull
      rw [run, memmove_eq hvalid, if_pos hone]
      rfl
    | memcmp lhs rhs count =>
      have hone : lhs = NULL ∨ rhs = NULL := hnull
      rw [run, RiscyOs.memcmp, if_pos hone]
      rfl
  · rw [if_neg hnull]
    cases c with
    | memset dest ch count =>
      have hdest : dest ≠ NULL := hnull
      rw [run, RiscyOs.memset, if_neg hdest, memsetFrom_eq hvalid]
      rfl
    | memsetExplicit dest ch count =>
      have hdest : dest ≠ NULL := hnull
      rw [run, RiscyOs.memsetExplicit, if_neg hdest, RiscyOs.memset, if_neg hdest,
        memsetFrom_eq hvalid]
      rfl
    | memcpy dest src count =>
      have hnone : ¬ (dest = NULL ∨ src = NULL) := hnull
      rw [run, memcpy_eq hvalid, if_neg hnone]
      rfl
    | memmove dest src count =>
      have hnone : ¬ (dest = NULL ∨ src = NULL) := hnull
      rw [run, memmove_eq hvalid, if_neg hnone]
      rfl
    | memcmp lhs rhs count =>
      have hnone : ¬ (lhs = NULL ∨ rhs = NULL) := hnull
      rw [run, RiscyOs.memcmp, if_neg hnone, memcmpFrom_read]
      rfl

/-- **A run of calls reads, writes and compares whole ranges.** It aborts exactly when a pointer is
`NULL`. -/
theorem runCalls_eq {cs : List MemCall} (hvalid : ∀ c ∈ cs, c.Valid) (m : Mem) :
    runCalls m cs =
      if ∃ c ∈ cs, c.HasNull then .error .abort else .ok (MemCall.meansAll m cs) := by
  induction cs generalizing m with
  | nil => rfl
  | cons c cs ih =>
    obtain ⟨hc, hcs⟩ := List.forall_mem_cons.1 hvalid
    simp only [runCalls, MemCall.run_eq hc, ih hcs, List.exists_mem_cons_iff]
    by_cases hnull : c.HasNull
    · rw [if_pos hnull, if_pos (.inl hnull)]
      rfl
    · rw [if_neg hnull, ok_bind]
      by_cases hrest : ∃ c ∈ cs, c.HasNull
      · rw [if_pos hrest, if_pos (.inr hrest)]
        rfl
      · rw [if_neg hrest, if_neg (not_or.2 ⟨hnull, hrest⟩)]
        rfl

/-- Five bytes are moved up by two, over the last three of them, compared with what is left below,
and that is filled. -/
theorem runCalls_eq_overlapping :
    (runCalls (fun a => UInt8.ofNat a)
        [.memmove 102 100 5, .memcmp 102 100 2, .memset 100 (-1) 2, .memcmp 102 100 2]).map
      (fun x => (x.1, x.2.read 100 7)) =
      .ok ([.pointer 102, .sign 0, .pointer 100, .sign (-1)],
        [255, 255, 100, 101, 102, 103, 104]) := by
  have hvalid : ∀ c ∈ [MemCall.memmove 102 100 5, .memcmp 102 100 2, .memset 100 (-1) 2,
      .memcmp 102 100 2], c.Valid := by
    simp [MemCall.Valid]
  rw [runCalls_eq hvalid]
  decide

end RiscyOs
